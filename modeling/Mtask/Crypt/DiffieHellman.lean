import Mathlib.Data.Nat.ModEq
import Mathlib.Tactic.Ring
import Mtask.Crypt.Words

/-!
# The key exchange

`mul_mod_p` adds and doubles modulo `P`, the largest prime below `2 ^ 64`, without leaving 64 bits;
`pow_mod_p` squares and multiplies, and calls itself with half of the exponent until that is `1`, so
it does not end for the exponent `0`. `powmodp` reduces a base above `P`, but not `P` itself.

How deep `pow_mod_p` calls itself is bounded by the stack; a call that needs more is `none`.
-/

namespace Mtask.Crypt

/-- The biggest 64bit prime. -/
def p : UInt64 := 0xffffffffffffffc5

/-- The loop of `mul_mod_p`. -/
def mulModPLoop (a b m : UInt64) : UInt64 :=
  if _h : b = 0 then m
  else
    let t := p - a
    mulModPLoop (if p - a ≤ a then a * 2 - p else a * 2) (b >>> 1)
      (if b &&& 1 ≠ 0 then if t ≤ m then m - t else m + a else m)
termination_by b.toNat
decreasing_by
  have hb : b.toNat ≠ 0 := fun hzero => _h (UInt64.toNat_inj.mp hzero)
  rw [UInt64.toNat_shiftRight]
  exact Nat.div_lt_self (Nat.pos_of_ne_zero hb) (by decide)

/-- `mul_mod_p` -/
def mulModP (a b : UInt64) : UInt64 :=
  mulModPLoop a b 0

/-- `pow_mod_p`, with as many calls as the stack has room for. -/
def powModP : ℕ → UInt64 → UInt64 → Option UInt64
  | 0, _, _ => none
  | depth + 1, a, b =>
    if b = 1 then some a
    else
      match powModP depth a (b >>> 1) with
      | none => none
      | some t =>
        let t := mulModP t t
        if b % 2 ≠ 0 then some (mulModP t a) else some t

/-- `powmodp` -/
def powmodp (depth : ℕ) (a b : UInt64) : Option UInt64 :=
  powModP depth (if p < a then a % p else a) b

/-- What ends a function of the library without a result. -/
inductive CryptFault
  | raised (message : String)
  | stackOverflow
  deriving DecidableEq, Repr

/-- A power is pushed. -/
def pushPower (depth : ℕ) (a b : UInt64) : Except CryptFault (List UInt8) :=
  match powmodp depth a b with
  | some r => .ok (push64 r)
  | none => .error .stackOverflow

/-- `ldhsecret`, with `read64`. -/
def ldhsecret (depth : ℕ) (x y : List UInt8) : Except CryptFault (List UInt8) :=
  if x.length ≠ 8 then .error (.raised "Invalid uint64 x")
  else if y.length ≠ 8 then .error (.raised "Invalid uint64 y")
  else pushPower depth (readUInt64 x) (readUInt64 y)

/-- `ldhexchange` -/
def ldhexchange (depth : ℕ) (x : List UInt8) : Except CryptFault (List UInt8) :=
  if x.length ≠ 8 then .error (.raised "Invalid dh uint64 key")
  else pushPower depth 5 (readUInt64 x)

/-! ### What the functions should compute -/

/-- The power is computed, however much room the stack has beyond 64 calls. -/
def Powers (a b : UInt64) : Prop :=
  ∃ r, (∀ depth, 64 ≤ depth → powmodp depth a b = some r) ∧
    r.toNat = a.toNat ^ b.toNat % p.toNat

/-- A key. -/
abbrev Key := { x : List UInt8 // x.length = 8 }

/-- Both sides get the same secret. -/
def Agrees (x y : Key) : Prop :=
  ∃ secret, ∀ depth, 64 ≤ depth → ∃ gx gy,
    ldhexchange depth x = .ok gx ∧ ldhexchange depth y = .ok gy ∧
      ldhsecret depth gx y = .ok secret ∧ ldhsecret depth gy x = .ok secret

/-! ### Products -/

section Mul

variable {a b m : UInt64}

theorem toNat_p : p.toNat = 18446744073709551557 := rfl

theorem toNat_p_sub (ha : a ≤ p) : (p - a).toNat = p.toNat - a.toNat :=
  UInt64.toNat_sub_of_le _ _ ha

theorem toNat_addModP (ha : a ≤ p) (hm : m < p) :
    (if p - a ≤ m then m - (p - a) else m + a).toNat = (m.toNat + a.toNat) % p.toNat := by
  have hsub := toNat_p_sub ha
  rw [UInt64.le_iff_toNat_le] at ha
  rw [UInt64.lt_iff_toNat_lt] at hm
  rw [toNat_p] at ha hm hsub ⊢
  split_ifs with hle
  · have hle' := UInt64.le_iff_toNat_le.mp hle
    rw [UInt64.toNat_sub_of_le _ _ hle, hsub]
    omega
  · have hlt := UInt64.lt_iff_toNat_lt.mp (UInt64.not_le.mp hle)
    rw [UInt64.toNat_add]
    omega

theorem doubleModP (ha : a ≤ p) :
    (if p - a ≤ a then a * 2 - p else a * 2) ≤ p ∧
      (if p - a ≤ a then a * 2 - p else a * 2).toNat ≡ 2 * a.toNat [MOD p.toNat] := by
  have hsub := toNat_p_sub ha
  rw [UInt64.le_iff_toNat_le] at ha ⊢
  rw [Nat.ModEq]
  rw [toNat_p] at ha hsub ⊢
  have htwo : (2 : UInt64).toNat = 2 := rfl
  split_ifs with hle
  · have hle' := UInt64.le_iff_toNat_le.mp hle
    have hdouble : (a * 2 - p).toNat = 2 * a.toNat - 18446744073709551557 := by
      rw [UInt64.toNat_sub, UInt64.toNat_mul, toNat_p, htwo]
      omega
    rw [hdouble]
    omega
  · have hlt := UInt64.lt_iff_toNat_lt.mp (UInt64.not_le.mp hle)
    rw [UInt64.toNat_mul, htwo, Nat.mod_eq_of_lt (by omega), Nat.mul_comm]
    exact ⟨by omega, rfl⟩

/-- What is left of `b` is multiplied with what `a` has become. -/
theorem mulModPLoop_spec (ha : a ≤ p) (hm : m < p) : mulModPLoop a b m < p ∧
    (mulModPLoop a b m).toNat ≡ m.toNat + a.toNat * b.toNat [MOD p.toNat] := by
  induction hn : b.toNat using Nat.strongRecOn generalizing a b m with
  | _ n ih =>
    subst hn
    by_cases hb : b = 0
    · rw [mulModPLoop, dif_pos hb, hb]
      exact ⟨hm, by rw [UInt64.toNat_zero, Nat.mul_zero, Nat.add_zero]⟩
    · rw [mulModPLoop, dif_neg hb]
      obtain ⟨hle, hdouble⟩ := doubleModP ha
      have hhalf : (b >>> 1).toNat = b.toNat / 2 := by
        rw [UInt64.toNat_shiftRight]
        rfl
      have hlow : (b &&& 1).toNat = b.toNat % 2 := by
        rw [UInt64.toNat_and]
        exact Nat.and_one_is_mod _
      have hpos : 0 < b.toNat := Nat.pos_of_ne_zero fun hzero => hb (UInt64.toNat_inj.mp hzero)
      have hstep {m' : UInt64} (hm' : m' < p)
          (hmod : m'.toNat ≡ m.toNat + a.toNat * (b.toNat % 2) [MOD p.toNat]) :
          mulModPLoop (if p - a ≤ a then a * 2 - p else a * 2) (b >>> 1) m' < p ∧
            (mulModPLoop (if p - a ≤ a then a * 2 - p else a * 2) (b >>> 1) m').toNat ≡
              m.toNat + a.toNat * b.toNat [MOD p.toNat] := by
        obtain ⟨hlt, hres⟩ := ih _ (by rw [hhalf]; exact Nat.div_lt_self hpos (by decide)) hle hm' rfl
        refine ⟨hlt, hres.trans ((hmod.add (hdouble.mul_right _)).trans ?_)⟩
        have hsplit : a.toNat * b.toNat = a.toNat * (b.toNat % 2 + 2 * (b.toNat / 2)) := by
          rw [Nat.mod_add_div]
        have hsum : m.toNat + a.toNat * (b.toNat % 2) + 2 * a.toNat * (b.toNat / 2) =
            m.toNat + a.toNat * (b.toNat % 2 + 2 * (b.toNat / 2)) := by ring
        rw [hsplit, hhalf, hsum]
      rcases Nat.mod_two_eq_zero_or_one b.toNat with heven | hodd
      · have hbit : ¬b &&& 1 ≠ 0 := by
          rw [not_not, ← UInt64.toNat_inj, hlow, heven]
          rfl
        simp only [if_neg hbit]
        exact hstep hm (by rw [heven, Nat.mul_zero, Nat.add_zero])
      · have hbit : b &&& 1 ≠ 0 := by
          rw [ne_eq, ← UInt64.toNat_inj, hlow, hodd]
          decide
        have hadd := toNat_addModP ha hm
        simp only [if_pos hbit]
        refine hstep (UInt64.lt_iff_toNat_lt.mpr ?_) ?_
        · rw [hadd]
          exact Nat.mod_lt _ (by decide)
        · rw [hadd, hodd, Nat.mul_one]
          exact Nat.mod_modEq _ _

/-- **The product modulo `P`.** -/
theorem toNat_mulModP (ha : a ≤ p) (b : UInt64) :
    (mulModP a b).toNat = a.toNat * b.toNat % p.toNat := by
  obtain ⟨hlt, hmod⟩ := mulModPLoop_spec (b := b) ha (m := 0) (by decide)
  rw [UInt64.toNat_zero, Nat.zero_add] at hmod
  rw [mulModP, ← Nat.mod_eq_of_lt (UInt64.lt_iff_toNat_lt.mp hlt)]
  exact hmod

end Mul

/-! ### Powers -/

variable {r : UInt64} {n : ℕ}

section Pow

variable {a b : UInt64}

/-- What `pow_mod_p` gives for a base `a`. -/
def IsPower (a : UInt64) (n : ℕ) (r : UInt64) : Prop :=
  r ≤ p ∧ r.toNat ≡ a.toNat ^ n [MOD p.toNat]

theorem IsPower.of_toNat_eq (h : r.toNat = a.toNat ^ n % p.toNat) : IsPower a n r := by
  refine ⟨UInt64.le_iff_toNat_le.mpr ?_, ?_⟩
  · rw [h]
    exact Nat.le_of_lt (Nat.mod_lt _ (by decide))
  · rw [h]
    exact Nat.mod_modEq _ _

theorem IsPower.mul {k : ℕ} {t : UInt64} (hr : IsPower a n r) (ht : IsPower a k t) :
    (mulModP r t).toNat = a.toNat ^ (n + k) % p.toNat := by
  rw [toNat_mulModP hr.1, Nat.pow_add]
  exact hr.2.mul ht.2

variable {depth : ℕ}

/-- **The power modulo `P`.** A base up to `P` comes back as it is for the exponent `1`, and is
raised to the power modulo `P` for the others. -/
theorem powModP_eq (ha : a ≤ p) (hpos : b ≠ 0) (hdepth : b.toNat < 2 ^ depth) :
    ∃ r, powModP depth a b = some r ∧
      r.toNat = if b = 1 then a.toNat else a.toNat ^ b.toNat % p.toNat := by
  have hbase : IsPower a 1 a := ⟨ha, by rw [Nat.pow_one]⟩
  induction depth generalizing b with
  | zero => exact absurd (UInt64.toNat_inj.mp (Nat.lt_one_iff.mp hdepth)) hpos
  | succ depth ih =>
    rw [powModP]
    by_cases hone : b = 1
    · rw [if_pos hone, if_pos hone]
      exact ⟨a, rfl, rfl⟩
    · have hzero : b.toNat ≠ 0 := fun h => hpos (UInt64.toNat_inj.mp h)
      have hone' : b.toNat ≠ 1 := fun h => hone (UInt64.toNat_inj.mp h)
      have hhalf : (b >>> 1).toNat = b.toNat / 2 := by
        rw [UInt64.toNat_shiftRight]
        rfl
      have hne : b >>> 1 ≠ 0 := by
        rw [ne_eq, ← UInt64.toNat_inj, hhalf]
        exact Nat.ne_of_gt (Nat.div_pos (by omega) (by decide))
      obtain ⟨t, heq, ht⟩ := ih hne (by
        rw [hhalf]
        exact Nat.div_lt_of_lt_mul (by rwa [Nat.pow_succ, Nat.mul_comm] at hdepth))
      have hpow : IsPower a (b.toNat / 2) t := by
        rw [← hhalf]
        split_ifs at ht with hlast
        · obtain rfl := UInt64.toNat_inj.mp ht
          rwa [hlast]
        · exact .of_toNat_eq ht
      have hsquare := hpow.mul hpow
      have hlow : (b % 2).toNat = b.toNat % 2 := UInt64.toNat_mod _ _
      rw [if_neg hone, if_neg hone, heq]
      rcases Nat.mod_two_eq_zero_or_one b.toNat with heven | hodd
      · have hbit : ¬b % 2 ≠ 0 := by
          rw [not_not, ← UInt64.toNat_inj, hlow, heven]
          rfl
        refine ⟨_, if_neg hbit, ?_⟩
        rw [hsquare]
        congr 2
        omega
      · have hbit : b % 2 ≠ 0 := by
          rw [ne_eq, ← UInt64.toNat_inj, hlow, hodd]
          decide
        refine ⟨_, if_pos hbit, ?_⟩
        rw [(IsPower.of_toNat_eq hsquare).mul hbase]
        congr 2
        omega

theorem powModP_zero (depth : ℕ) (a : UInt64) : powModP depth a 0 = none := by
  induction depth with
  | zero => rfl
  | succ depth ih =>
    rw [powModP, if_neg (by decide), show (0 : UInt64) >>> 1 = 0 from rfl, ih]

/-- `powmodp` computes the power of every base but `P` itself, for the exponent `1`. -/
theorem powmodp_eq (hpos : b ≠ 0) (hdepth : 64 ≤ depth) :
    ∃ r, powmodp depth a b = some r ∧
      r.toNat = if a = p ∧ b = 1 then p.toNat else a.toNat ^ b.toNat % p.toNat := by
  have hlt : b.toNat < 2 ^ depth :=
    Nat.lt_of_lt_of_le b.toNat_lt (Nat.pow_le_pow_right (by decide) hdepth)
  rw [powmodp]
  by_cases hp : p < a
  · have hne : ¬(a = p ∧ b = 1) := fun h => UInt64.lt_irrefl p (h.1 ▸ hp)
    have hmod : (a % p).toNat = a.toNat % p.toNat := UInt64.toNat_mod _ _
    have hle : a % p ≤ p := by
      rw [UInt64.le_iff_toNat_le, hmod]
      exact Nat.le_of_lt (Nat.mod_lt _ (by decide))
    obtain ⟨r, heq, hr⟩ := powModP_eq hle hpos hlt
    rw [if_pos hp, if_neg hne]
    refine ⟨r, heq, ?_⟩
    rw [hr]
    split_ifs with hone
    · rw [hone, hmod, UInt64.toNat_one, Nat.pow_one]
    · rw [hmod, ← Nat.pow_mod]
  · have hle : a ≤ p := UInt64.not_lt.mp hp
    obtain ⟨r, heq, hr⟩ := powModP_eq hle hpos hlt
    rw [if_neg hp]
    refine ⟨r, heq, ?_⟩
    rw [hr]
    by_cases hone : b = 1
    · by_cases ha : a = p
      · rw [if_pos hone, if_pos ⟨ha, hone⟩, ha]
      · have hsmall : a.toNat < p.toNat := Nat.lt_of_le_of_ne (UInt64.le_iff_toNat_le.mp hle)
          fun h => ha (UInt64.toNat_inj.mp h)
        rw [if_pos hone, if_neg fun h => ha h.1, hone, UInt64.toNat_one, Nat.pow_one,
          Nat.mod_eq_of_lt hsmall]
    · rw [if_neg hone, if_neg fun h => hone h.2]

/-- **Which powers are computed.** -/
theorem powers_iff (a b : UInt64) : Powers a b ↔ b ≠ 0 ∧ ¬(a = p ∧ b = 1) := by
  refine ⟨?_, ?_⟩
  · rintro ⟨r, hcall, hr⟩
    have hpos : b ≠ 0 := by
      rintro rfl
      have := hcall 64 (Nat.le_refl _)
      rw [powmodp, powModP_zero] at this
      cases this
    refine ⟨hpos, fun h => ?_⟩
    obtain ⟨r', heq, hr'⟩ := powmodp_eq (a := a) hpos (Nat.le_refl 64)
    obtain rfl : r = r' := Option.some.inj ((hcall 64 (Nat.le_refl _)).symm.trans heq)
    rw [if_pos h] at hr'
    have hlt : r.toNat < p.toNat := hr ▸ Nat.mod_lt _ (by decide)
    exact Nat.ne_of_lt hlt hr'
  · rintro ⟨hpos, hne⟩
    obtain ⟨r, -, hr⟩ := powmodp_eq (a := a) hpos (Nat.le_refl 64)
    refine ⟨r, fun depth hdepth => ?_, ?_⟩
    · obtain ⟨r', heq, hr'⟩ := powmodp_eq (a := a) hpos hdepth
      rw [heq, UInt64.toNat_inj.mp (hr.trans hr'.symm)]
    · rw [hr, if_neg hne]

end Pow

/-! ### The exchange -/

section Exchange

variable {x y : Key}

theorem ldhexchange_eq (depth : ℕ) (x : Key) :
    ldhexchange depth x = pushPower depth 5 (readUInt64 x.1) :=
  if_neg fun h => h x.2

theorem ldhsecret_eq (depth : ℕ) {gx : List UInt8} (hlen : gx.length = 8) (y : Key) :
    ldhsecret depth gx y = pushPower depth (readUInt64 gx) (readUInt64 y.1) := by
  rw [ldhsecret, if_neg (fun h => h hlen), if_neg fun h => h y.2]

/-- The number that is sent to the other side. -/
theorem exists_ldhexchange (hx : readUInt64 x.1 ≠ 0) : ∃ r : UInt64,
    r.toNat = 5 ^ (readUInt64 x.1).toNat % p.toNat ∧
      ∀ depth, 64 ≤ depth → ldhexchange depth x = .ok (push64 r) := by
  obtain ⟨r, hcall, hr⟩ := (powers_iff 5 _).mpr ⟨hx, fun h => absurd h.1 (by decide)⟩
  refine ⟨r, hr, fun depth hdepth => ?_⟩
  rw [ldhexchange_eq, pushPower, hcall depth hdepth]

theorem exists_ldhsecret (hr : r.toNat = 5 ^ n % p.toNat) (hy : readUInt64 y.1 ≠ 0) : ∃ s : UInt64,
    s.toNat = 5 ^ (n * (readUInt64 y.1).toNat) % p.toNat ∧
      ∀ depth, 64 ≤ depth → ldhsecret depth (push64 r) y = .ok (push64 s) := by
  have hlt : r.toNat < p.toNat := hr ▸ Nat.mod_lt _ (by decide)
  obtain ⟨s, hcall, hs⟩ := (powers_iff r _).mpr
    ⟨hy, fun h => Nat.ne_of_lt hlt (congrArg UInt64.toNat h.1)⟩
  refine ⟨s, ?_, fun depth hdepth => ?_⟩
  · rw [hs, hr, Nat.pow_mul, ← Nat.pow_mod]
  · rw [ldhsecret_eq depth rfl, readUInt64_push64, pushPower, hcall depth hdepth]

/-- **For which keys both sides agree.** -/
theorem agrees_iff (x y : Key) : Agrees x y ↔ readUInt64 x.1 ≠ 0 ∧ readUInt64 y.1 ≠ 0 := by
  refine ⟨?_, ?_⟩
  · rintro ⟨secret, hcall⟩
    obtain ⟨gx, gy, hgx, hgy, -⟩ := hcall 64 (Nat.le_refl _)
    have hzero (z : Key) {gz : List UInt8} (h : ldhexchange 64 z = .ok gz) :
        readUInt64 z.1 ≠ 0 := by
      intro hz
      rw [ldhexchange_eq, hz, pushPower, powmodp, powModP_zero] at h
      cases h
    exact ⟨hzero x hgx, hzero y hgy⟩
  · rintro ⟨hx, hy⟩
    obtain ⟨gx, hgx, hcallx⟩ := exists_ldhexchange hx
    obtain ⟨gy, hgy, hcally⟩ := exists_ldhexchange hy
    obtain ⟨s, hs, hcalls⟩ := exists_ldhsecret hgx hy
    obtain ⟨t, ht, hcallt⟩ := exists_ldhsecret hgy hx
    have hst : t = s := by
      rw [← UInt64.toNat_inj, hs, ht, Nat.mul_comm]
    exact ⟨push64 s, fun depth hdepth => ⟨_, _, hcallx depth hdepth, hcally depth hdepth,
      hcalls depth hdepth, hst ▸ hcallt depth hdepth⟩⟩

/-- **The key exchange.** `powmodp` computes the power if and only if the exponent is not `0` and it
is not `P` itself that is raised to the power `1`; both sides agree if and only if neither key is
`0`. -/
theorem dh_iff (a b : UInt64) (x y : Key) :
    (Powers a b ↔ b ≠ 0 ∧ ¬(a = p ∧ b = 1)) ∧
      (Agrees x y ↔ readUInt64 x.1 ≠ 0 ∧ readUInt64 y.1 ≠ 0) :=
  ⟨powers_iff a b, agrees_iff x y⟩

/-- The exponent `0` needs more room than any stack has; `P` comes back as it is; and a key of eight
zeros is not answered. -/
theorem dh_fails : (∀ depth, powmodp depth 5 0 = none) ∧
    (∀ depth, powmodp (depth + 1) p 1 = some p) ∧
    (∀ depth, ldhexchange depth (List.replicate 8 0) = .error .stackOverflow) ∧
    ¬(∀ a b, Powers a b) ∧ ¬∀ x y, Agrees x y := by
  refine ⟨fun depth => powModP_zero depth 5, fun depth => rfl, fun depth => ?_, fun hall => ?_,
    fun hall => ?_⟩
  · rw [ldhexchange_eq depth ⟨List.replicate 8 0, rfl⟩, pushPower, powmodp,
      show readUInt64 (List.replicate 8 0) = 0 by decide, powModP_zero]
  · obtain ⟨r, hcall, -⟩ := hall 5 0
    have := hcall 64 (Nat.le_refl _)
    rw [powmodp, powModP_zero] at this
    cases this
  · obtain ⟨secret, hcall⟩ := hall ⟨List.replicate 8 0, rfl⟩ ⟨List.replicate 8 0, rfl⟩
    obtain ⟨gx, gy, hgx, -⟩ := hcall 64 (Nat.le_refl _)
    rw [ldhexchange_eq, pushPower, powmodp,
      show readUInt64 (List.replicate 8 0) = 0 by decide, powModP_zero] at hgx
    cases hgx

end Exchange

end Mtask.Crypt
