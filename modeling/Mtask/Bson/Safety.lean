import Mtask.Bson.Layout
import Mtask.Lib.Outcomes

/-!
# Blocks that are not trusted

A length that an element begins with is adjusted by a number that depends on its type, and compared
with what is left, but not with zero. The functions come to such a length, or they do not; if they do
not, then they stay inside of the block.
-/

namespace Mtask.Bson

open Lua Lua.Value Mongo Buffers

/-! ### What they should do -/

/-- A block of bytes that begins with its length. -/
def IsBlock (block : List UInt8) : Prop :=
  4 ≤ block.length ∧ getLength block = block.length

/-- There is a result, or an error is raised. -/
def Ended {α : Type} : EStateM.Result BsonFault BsonReader α → Prop
  | .ok _ _ => True
  | .error (.raised _) _ => True
  | .error _ _ => False

instance {α : Type} : (r : EStateM.Result BsonFault BsonReader α) → Decidable (Ended r)
  | .ok _ _ | .error (.raised _) _ => .isTrue trivial
  | .error .outOfBounds _ | .error .backwards _ | .error .negativeLength _
  | .error .running _ => .isFalse id

/-- The functions `decode` and `makeindex` come to an end with a result or an error, and no byte
outside of the block is read, no pointer moves backwards, no size becomes negative, and no string has
a negative length. -/
def Safe (block : List UInt8) : Prop :=
  Ended (ldecode block) ∧ Ended (lmakeindex block)

/-! ### When they do -/

/-- An element at a place, with the place of its value. -/
structure IsElement (block : List UInt8) (e o : ℕ) (type : BsonType) (v : ℕ) : Prop where
  lt : o < e
  type : BsonType.ofCode ((slice block o 1).headD 0) = some type
  key : skipCstring block e (o + 1) = .ok v

/-- What there is to find out about the elements between two places, when the values are as `layout`
says: they are all passed by, or one of them is refused, or has a negative length. The elements of
a document come before those behind it. -/
inductive Comes (layout : BsonType → Layout) (block : List UInt8) :
    ℕ → ℕ → Except Refusal Unit → Prop
  | stop (e : ℕ) : Comes layout block e e (.ok ())
  | unknown {e o : ℕ} (hlt : o < e) (h : ∀ type v, ¬IsElement block e o type v) :
      Comes layout block e o (.error .refused)
  | bad {e o v : ℕ} {type : BsonType} {refusal : Refusal} (h : IsElement block e o type v)
      (hends : (layout type).ends block e v = .error refusal) :
      Comes layout block e o (.error refusal)
  | inside {e o v o' : ℕ} {type : BsonType} {refusal : Refusal} (h : IsElement block e o type v)
      (hends : (layout type).ends block e v = .ok o') (hdoc : layout type = .document)
      (hinner : Comes layout block (o' - 1) (v + 4) (.error refusal)) :
      Comes layout block e o (.error refusal)
  | next {e o v o' : ℕ} {type : BsonType} {finding : Except Refusal Unit}
      (h : IsElement block e o type v) (hends : (layout type).ends block e v = .ok o')
      (hinner : layout type = .document → Comes layout block (o' - 1) (v + 4) (.ok ()))
      (hrest : Comes layout block e o' finding) : Comes layout block e o finding

/-- No function comes to a length that is negative when the number for its type has been added. -/
def Lengths (block : List UInt8) : Prop :=
  5 ≤ block.length ∧ ¬Comes indexLayout block (block.length - 1) 4 (.error .negative) ∧
    (block.getLast? = some 0 →
      ¬Comes decodeLayout block (block.length - 1) 4 (.error .negative))

/-! ### The loops -/

variable {finding : Except Refusal Unit}

section Loops

variable {layout : BsonType → Layout} {block : List UInt8} {e o v : ℕ}

variable {type : BsonType}

theorem IsElement.unique {type' : BsonType} {v' : ℕ} (h : IsElement block e o type v)
    (h' : IsElement block e o type' v') : type = type' ∧ v = v' :=
  ⟨Option.some.inj (h.type.symm.trans h'.type), Except.ok.inj (h.key.symm.trans h'.key)⟩

theorem Comes.unique {finding' : Except Refusal Unit} (h : Comes layout block e o finding)
    (h' : Comes layout block e o finding') : finding = finding' := by
  induction h generalizing finding' with
  | stop e =>
    cases h' with
    | stop => rfl
    | unknown hlt => exact absurd hlt (Nat.lt_irrefl e)
    | bad h => exact absurd h.lt (Nat.lt_irrefl e)
    | inside h => exact absurd h.lt (Nat.lt_irrefl e)
    | next h => exact absurd h.lt (Nat.lt_irrefl e)
  | @unknown e o hlt hnone =>
    cases h' with
    | stop => exact absurd hlt (Nat.lt_irrefl e)
    | unknown => rfl
    | bad h => exact absurd h (hnone _ _)
    | inside h => exact absurd h (hnone _ _)
    | next h => exact absurd h (hnone _ _)
  | @bad e o v type refusal h hends =>
    cases h' with
    | stop => exact absurd h.lt (Nat.lt_irrefl e)
    | unknown hlt hnone => exact absurd h (hnone _ _)
    | bad h' hends' =>
      obtain ⟨rfl, rfl⟩ := h.unique h'
      exact congrArg Except.error (Except.error.inj (hends.symm.trans hends'))
    | inside h' hends' =>
      obtain ⟨rfl, rfl⟩ := h.unique h'
      nomatch hends.symm.trans hends'
    | next h' hends' =>
      obtain ⟨rfl, rfl⟩ := h.unique h'
      nomatch hends.symm.trans hends'
  | @inside e o v o' type refusal h hends hdoc hinner ih =>
    cases h' with
    | stop => exact absurd h.lt (Nat.lt_irrefl e)
    | unknown hlt hnone => exact absurd h (hnone _ _)
    | bad h' hends' =>
      obtain ⟨rfl, rfl⟩ := h.unique h'
      nomatch hends.symm.trans hends'
    | inside h' hends' hdoc' hinner' =>
      obtain ⟨rfl, rfl⟩ := h.unique h'
      obtain rfl := Except.ok.inj (hends.symm.trans hends')
      exact ih hinner'
    | next h' hends' hinner' =>
      obtain ⟨rfl, rfl⟩ := h.unique h'
      obtain rfl := Except.ok.inj (hends.symm.trans hends')
      nomatch ih (hinner' hdoc)
  | @next e o v o' type finding h hends hinner hrest ihinner ih =>
    cases h' with
    | stop => exact absurd h.lt (Nat.lt_irrefl e)
    | unknown hlt hnone => exact absurd h (hnone _ _)
    | bad h' hends' =>
      obtain ⟨rfl, rfl⟩ := h.unique h'
      nomatch hends.symm.trans hends'
    | inside h' hends' hdoc' hinner' =>
      obtain ⟨rfl, rfl⟩ := h.unique h'
      obtain rfl := Except.ok.inj (hends.symm.trans hends')
      nomatch ihinner hdoc' hinner'
    | next h' hends' hinner' hrest' =>
      obtain ⟨rfl, rfl⟩ := h.unique h'
      obtain rfl := Except.ok.inj (hends.symm.trans hends')
      exact ih hrest'

/-- What there is to find out about a value. -/
def ValueComes (layout : BsonType → Layout) (block : List UInt8) (e : ℕ) (type : BsonType) (v : ℕ)
    (o : Except Refusal ℕ) : Prop :=
  match (layout type).ends block e v with
  | .error refusal => o = .error refusal
  | .ok o' =>
    if layout type = .document then
      ∃ finding, Comes layout block (o' - 1) (v + 4) finding ∧ o = finding.map fun _ => o'
    else o = .ok o'

variable {refusal : Refusal}

theorem skipCstring_refused (h : skipCstring block e v = .error refusal) : refusal = .refused := by
  rw [skipCstring] at h
  split at h
  · exact (Except.error.inj h).symm
  · cases h

theorem ValueComes.comes_error (h : ValueComes layout block e type v (.error refusal))
    (helement : IsElement block e o type v) : Comes layout block e o (.error refusal) := by
  rw [ValueComes] at h
  cases hends : (layout type).ends block e v with
  | error refusal' =>
    rw [hends] at h
    obtain rfl := Except.error.inj h
    exact .bad helement hends
  | ok o' =>
    rw [hends] at h
    simp only at h
    split_ifs at h with hdoc
    obtain ⟨finding, hinner, hfinding⟩ := h
    cases finding with
    | ok => nomatch hfinding
    | error refusal' =>
      obtain rfl := Except.error.inj hfinding
      exact .inside helement hends hdoc hinner

theorem ValueComes.of_ok {o' : ℕ} (h : ValueComes layout block e type v (.ok o')) :
    (layout type).ends block e v = .ok o' ∧
      (layout type = .document → Comes layout block (o' - 1) (v + 4) (.ok ())) := by
  rw [ValueComes] at h
  cases hends : (layout type).ends block e v with
  | error refusal' =>
    rw [hends] at h
    nomatch h
  | ok o₁ =>
    rw [hends] at h
    simp only at h
    split_ifs at h with hdoc
    · obtain ⟨finding, hinner, hfinding⟩ := h
      cases finding with
      | ok =>
        obtain rfl := Except.ok.inj hfinding
        exact ⟨rfl, fun _ => hinner⟩
      | error refusal' => nomatch hfinding
    · obtain rfl := Except.ok.inj h
      exact ⟨rfl, fun h => absurd h hdoc⟩

/-- A value is behind its name, and inside of the document. -/
theorem ends_le {layout : Layout} {o' : ℕ} (h : layout.ends block e v = .ok o') :
    v ≤ o' ∧ o' ≤ e := by
  cases layout with
  | fixed n =>
    obtain ⟨hn, rfl, hle⟩ := skip_ok h
    omega
  | sized more add =>
    obtain ⟨o₁, h₁, h⟩ := Outcomes.bind_eq_ok.mp h
    obtain ⟨o₂, h₂, h⟩ := Outcomes.bind_eq_ok.mp h
    obtain ⟨-, rfl, -⟩ := skip_ok h₁
    obtain ⟨-, rfl, -⟩ := skip_ok h₂
    obtain ⟨hn, rfl, hle⟩ := skip_ok h
    omega
  | text =>
    obtain ⟨o₁, h₁, h⟩ := Outcomes.bind_eq_ok.mp h
    obtain ⟨-, rfl, -⟩ := skip_ok h₁
    split_ifs at h
    obtain ⟨hn, rfl, hle⟩ := skip_ok h
    omega
  | cstrings =>
    obtain ⟨o₁, h₁, h⟩ := Outcomes.bind_eq_ok.mp h
    have hfirst := skipCstring_ok h₁
    have hsecond := skipCstring_ok h
    omega
  | document =>
    obtain ⟨o₁, h₁, h⟩ := Outcomes.bind_eq_ok.mp h
    obtain ⟨o₂, h₂, h⟩ := Outcomes.bind_eq_ok.mp h
    obtain ⟨o₃, h₃, h⟩ := Outcomes.bind_eq_ok.mp h
    obtain ⟨-, rfl, -⟩ := skip_ok h₁
    obtain ⟨-, rfl, -⟩ := skip_ok h₂
    obtain ⟨-, rfl, hle⟩ := skip_ok h₃
    split_ifs at h
    obtain rfl := Except.ok.inj h
    omega

/-- **The loop over the elements** finds out what there is to find out, if that is so for what is done
with every value. -/
theorem runs_forElements {σ : Type} {body : BsonType → List UInt8 → σ → Reading σ}
    (he : e ≤ block.length) (start : ℕ) (hbody : ∀ type v, start < v → v ≤ e → ∃ out,
      ValueComes layout block e type v out ∧
        ∀ key s, Runs block e (body type key s) v out fun _ => True)
    {fuel : ℕ} (hstart : start ≤ o) (ho : o ≤ e) (hfuel : e - o < fuel) :
    ∃ finding, Comes layout block e o finding ∧
      ∀ s, Runs block e (forElements body fuel s) o (finding.map fun _ => e) fun _ => True := by
  induction fuel generalizing o with
  | zero => omega
  | succ fuel ih =>
    simp only [forElements]
    rcases Nat.eq_or_lt_of_le ho with rfl | hlt
    · refine ⟨_, Comes.stop o, fun s => runs_get ?_⟩
      rw [if_pos (show (place block o o).size = 0 from Int.sub_self _)]
      exact .pure ho trivial
    · have hbyte : Runs block e readByte o (.ok (o + 1)) _ := skip_one hlt ▸ runs_readByte he
      have hkey := runs_readCstring (v := o + 1) hlt he
      have hsize : ¬(place block e o).size = 0 := by
        simp only [place]
        omega
      cases hcstring : skipCstring block e (o + 1) with
      | error refusal =>
        rw [hcstring] at hkey
        obtain rfl := skipCstring_refused hcstring
        have hunknown : Comes layout block e o (.error .refused) :=
          .unknown hlt fun type v h => by simpa using h.key.symm.trans hcstring
        refine ⟨_, hunknown, fun s => runs_get ?_⟩
        rw [if_neg hsize]
        exact hbyte.bind_ok fun _ _ _ _ => hkey.bind_error
      | ok v =>
        rw [hcstring] at hkey
        obtain ⟨hv, hle⟩ := skipCstring_ok hcstring
        cases htype : BsonType.ofCode ((slice block o 1).headD 0) with
        | none =>
          have hunknown : Comes layout block e o (.error .refused) :=
            .unknown hlt fun type v h => by simpa using h.type.symm.trans htype
          refine ⟨_, hunknown, fun s => runs_get ?_⟩
          rw [if_neg hsize]
          refine hbyte.bind_ok fun bt hbt _ _ => hkey.bind_ok fun key _ _ _ => ?_
          rw [← hbt, htype]
          exact .raise _
        | some type =>
          have helement : IsElement block e o type v := ⟨hlt, htype, hcstring⟩
          obtain ⟨out, hcomes, hruns⟩ := hbody type v (by omega) hle
          have hstep {finding : Except Refusal Unit} (h : ∀ key s, Runs block e
              (body type key s >>= forElements body fuel) v (finding.map fun _ => e) fun _ => True)
              (s : σ) : Runs block e (forElements body (fuel + 1) s) o (finding.map fun _ => e)
                fun _ => True := by
            rw [forElements]
            refine runs_get ?_
            rw [if_neg hsize]
            refine hbyte.bind_ok fun bt hbt _ _ => hkey.bind_ok fun key _ _ _ => ?_
            rw [← hbt, htype]
            exact h key s
          cases out with
          | error refusal =>
            exact ⟨.error refusal, hcomes.comes_error helement,
              hstep fun key s => (hruns key s).bind_error⟩
          | ok o' =>
            obtain ⟨hends, hinner⟩ := hcomes.of_ok
            obtain ⟨hlo, hhi⟩ := ends_le hends
            obtain ⟨finding, hrest, hloop⟩ := ih (o := o') (by omega) hhi (by omega)
            exact ⟨finding, .next helement hends hinner hrest,
              hstep fun key s => (hruns key s).bind_ok fun s' _ _ _ => hloop s'⟩

theorem valueComes_of_ne (hdoc : layout type ≠ .document) :
    ValueComes layout block e type v ((layout type).ends block e v) := by
  rw [ValueComes]
  cases (layout type).ends block e v with
  | error refusal => rfl
  | ok o' => simp only [if_neg hdoc]

end Loops

/-! ### `unpack_dict` -/

section Decode

variable {block : List UInt8} {e v : ℕ}

/-- An element whose documents are unpacked by a function that finds out what there is to find out. -/
theorem runs_unpackElement {nested : Bool → Reading (Value Unit)} (he : e ≤ block.length)
    (hlength : block.length < 2 ^ 31) (hpos : 0 < v) (hv : v ≤ e)
    (hnested : ∃ out, ValueComes decodeLayout block e .document v out ∧
      ∀ array, Runs block e (nested array) v out fun _ => True) (array : Bool) (type : BsonType) :
    ∃ out, ValueComes decodeLayout block e type v out ∧
      ∀ key s, Runs block e (unpackElement nested array type key s) v out fun _ => True := by
  by_cases hdoc : decodeLayout type = .document
  · obtain ⟨out, hcomes, hruns⟩ := hnested
    cases type with
    | document => exact ⟨out, hcomes, fun key s => (hruns false).map fun _ _ => trivial⟩
    | array => exact ⟨out, hcomes, fun key s => (hruns true).map fun _ _ => trivial⟩
    | _ => nomatch hdoc
  · exact ⟨_, valueComes_of_ne hdoc, fun key s =>
      (runs_unpackValue nested he hlength hpos hv type hdoc).map fun _ _ => trivial⟩

theorem document_ends {n : ℤ} {o : ℕ} (hn : toInt (int32At block v - 5) = n)
    (hfour : skip e 4 v = .ok o) : Layout.document.ends block e v =
      skip e n o >>= fun o₁ => skip e 1 o₁ >>= fun o' =>
        if (slice block o₁ 1).headD 0 ≠ 0 then .error .refused else .ok o' := by
  rw [Layout.ends, hn, hfour]
  rfl

/-- **What `unpack_dict` finds out.** -/
theorem runs_unpackDict (he : e ≤ block.length) (hlength : block.length < 2 ^ 31) {depth : ℕ}
    (hv : v ≤ e) (hdepth : e - v < depth) : ∃ out,
      ValueComes decodeLayout block e .document v out ∧
        ∀ array, Runs block e (unpackDict depth array) v out fun _ => True := by
  induction depth generalizing e v with
  | zero => omega
  | succ depth ih =>
    have hbad {refusal : Refusal} (hends : Layout.document.ends block e v = .error refusal) :
        ValueComes decodeLayout block e .document v (.error refusal) := by
      rw [ValueComes, show decodeLayout .document = .document from rfl, hends]
    have hint : Runs block e readInt32 v (skip e 4 v) _ := runs_readInt32 he
    simp only [unpackDict]
    cases hfour : skip e 4 v with
    | error refusal =>
      rw [hfour] at hint
      exact ⟨_, hbad (by rw [Layout.ends, hfour]; rfl), fun array => hint.bind_error⟩
    | ok o =>
      rw [hfour] at hint
      obtain ⟨n, hn⟩ : ∃ n, toInt (int32At block v - 5) = n := ⟨_, rfl⟩
      have hends := document_ends hn hfour
      have hbytes : Runs block e (readBytes n) o (skip e n o) _ := runs_readBytes n
      cases hsize : skip e n o with
      | error refusal =>
        rw [hsize] at hbytes hends
        refine ⟨_, hbad hends, fun array => hint.bind_ok fun sz hsz _ _ => ?_⟩
        rw [← hsz, hn]
        exact hbytes.bind_error
      | ok o₁ =>
        rw [hsize] at hbytes hends
        have hbyte : Runs block e readByte o₁ (skip e 1 o₁) _ := runs_readByte he
        cases hone : skip e 1 o₁ with
        | error refusal =>
          rw [hone] at hbyte
          rw [show (Except.ok o₁ >>= _) = skip e 1 o₁ >>= _ from rfl, hone] at hends
          refine ⟨_, hbad hends, fun array => hint.bind_ok fun sz hsz _ _ => ?_⟩
          rw [← hsz, hn]
          exact hbytes.bind_ok fun ptr _ _ _ => hbyte.bind_error
        | ok o' =>
          rw [hone] at hbyte
          change _ = (skip e 1 o₁ >>= _) at hends
          rw [hone] at hends
          change _ = ite _ _ _ at hends
          obtain ⟨-, rfl, ho⟩ := skip_ok hfour
          obtain ⟨hpos, rfl, ho₁⟩ := skip_ok hsize
          obtain ⟨-, rfl, ho'⟩ := skip_ok hone
          by_cases hlast : (slice block (v + (4 : ℤ).toNat + n.toNat) 1).headD 0 ≠ 0
          · rw [if_pos hlast] at hends
            refine ⟨_, hbad hends, fun array => hint.bind_ok fun sz hsz _ _ => ?_⟩
            rw [← hsz, hn]
            refine hbytes.bind_ok fun ptr _ _ _ => hbyte.bind_ok fun last hlast' _ _ => ?_
            rw [← hlast', if_pos hlast]
            exact .raise _
          · rw [if_neg hlast] at hends
            have he' : v + (4 : ℤ).toNat + n.toNat ≤ block.length := by omega
            have hinner (array : Bool) : ∃ finding, Comes decodeLayout block
                (v + (4 : ℤ).toNat + n.toNat) (v + (4 : ℤ).toNat) finding ∧
                ∀ s, Runs block (v + (4 : ℤ).toNat + n.toNat)
                  (forElements (unpackElement (unpackDict depth) array) depth s) _ _ _ :=
              runs_forElements he' (v + (4 : ℤ).toNat) (fun type w hlo hhi =>
                runs_unpackElement he' hlength (by omega) hhi (ih he' hhi (by omega)) array type)
                le_rfl (by omega) (by omega)
            obtain ⟨finding, hcomes, -⟩ := hinner false
            refine ⟨finding.map fun _ => v + (4 : ℤ).toNat + n.toNat + (1 : ℤ).toNat, ?_,
              fun array => hint.bind_ok fun sz hsz _ _ => ?_⟩
            · rw [ValueComes, show decodeLayout .document = .document from rfl, hends]
              exact (if_pos rfl).mpr ⟨finding, hcomes, rfl⟩
            · rw [← hsz, hn]
              refine hbytes.bind_ok fun ptr hptr _ _ => hbyte.bind_ok fun last hlast' _ ho' => ?_
              rw [← hlast', if_neg hlast, ← hptr]
              obtain ⟨finding', hcomes', hruns⟩ := hinner array
              obtain rfl := hcomes.unique hcomes'
              have hmap : (finding.map fun _ => v + (4 : ℤ).toNat + n.toNat + (1 : ℤ).toNat) =
                  (finding.map fun _ => v + (4 : ℤ).toNat + n.toNat) >>= fun _ =>
                    .ok (v + (4 : ℤ).toNat + n.toNat + (1 : ℤ).toNat) := by cases finding <;> rfl
              rw [hmap]
              exact (runs_within ho' hpos (hruns [])).map fun _ _ => trivial

end Decode

/-! ### Whole blocks -/

section Block

variable {block : List UInt8}

theorem runs_indexElement {e v : ℕ} (he : e ≤ block.length) (hv : v ≤ e) (type : BsonType)
    (key : List UInt8) (index : Entries) : Runs block e (indexElement type key index) v
      ((indexLayout type).ends block e v) fun _ => True := by
  obtain ⟨fieldSize, o, hfield, hends⟩ := runs_indexField he hv type
  rw [← hends, indexElement]
  refine hfield.bind fun n o' hn _ ho' _ => ?_
  rw [hn]
  by_cases hpos : 0 < n
  · rw [if_pos hpos]
    exact runs_get ((runs_readBytes _).map fun _ _ => trivial)
  · obtain rfl := Nat.eq_zero_of_not_pos hpos
    rw [if_neg hpos, show ((0 : ℕ) : ℤ) = 0 from rfl, skip_zero ho']
    exact .pure ho' trivial

theorem indexLayout_ne (type : BsonType) : indexLayout type ≠ .document := by
  cases type <;> decide

theorem Runs.ended_iff {α : Type} {e v : ℕ} {m : Reading α} {o : Except Refusal ℕ} {Q : α → Prop}
    (h : Runs block e m v o Q) : Ended (m (place block e v)) ↔ o ≠ .error .negative := by
  rw [Runs] at h
  cases hm : m (place block e v) with
  | ok a br =>
    rw [hm] at h
    obtain ⟨v', rfl, -⟩ := h
    exact iff_of_true trivial (by simp)
  | error fault br =>
    rw [hm] at h
    cases fault with
    | raised message =>
      obtain rfl : o = _ := h
      exact iff_of_true trivial (by simp)
    | backwards =>
      obtain rfl : o = _ := h
      exact iff_of_false id (not_not.mpr rfl)
    | outOfBounds => exact h.elim
    | negativeLength => exact h.elim
    | running => exact h.elim

theorem IsBlock.lt (h : IsBlock block) : (block.length : ℤ) < 2 ^ 31 := by
  have hlength := h.2
  rw [getLength, int32At] at hlength
  rw [← hlength]
  exact (toInt_range _).2

theorem IsBlock.size (h : IsBlock block) : toInt (getLength block - 5) = block.length - 5 := by
  have hlt := h.lt
  rw [h.2, toInt_of_range (by omega) (by omega)]

theorem Comes.iff {layout : BsonType → Layout} {e o : ℕ} {finding' : Except Refusal Unit}
    (h : Comes layout block e o finding) : Comes layout block e o finding' ↔ finding = finding' :=
  ⟨h.unique, fun heq => heq ▸ h⟩

theorem map_ne_negative_iff {c : ℕ} :
    finding.map (fun _ => c) ≠ .error .negative ↔ ¬finding = .error .negative := by
  cases finding with
  | ok => exact iff_of_true nofun nofun
  | error refusal =>
    exact not_congr ⟨fun h => congrArg Except.error (Except.error.inj h),
      fun h => congrArg Except.error (Except.error.inj h)⟩

theorem headD_slice_last (h : 0 < block.length) :
    (slice block (block.length - 1) 1).headD 0 = 0 ↔ block.getLast? = some 0 := by
  have hslice : slice block (block.length - 1) 1 = [block[block.length - 1]] := by
    rw [slice, List.drop_eq_getElem_cons (by omega)]
    rfl
  rw [hslice, List.getLast?_eq_getElem?, List.getElem?_eq_getElem (by omega), Option.some.injEq]
  rfl

theorem ended_lmakeindex_iff (h : IsBlock block) : Ended (lmakeindex block) ↔
    5 ≤ block.length ∧ ¬Comes indexLayout block (block.length - 1) 4 (.error .negative) := by
  rw [lmakeindex, h.size]
  by_cases hfive : 5 ≤ block.length
  · have hend : 4 + ((block.length : ℤ) - 5).toNat = block.length - 1 := by omega
    have hpos : 4 + ((block.length : ℤ) - 5).toNat ≤ block.length := by omega
    obtain ⟨finding, hcomes, hruns⟩ : ∃ finding, Comes indexLayout block _ 4 finding ∧
        ∀ s, Runs block _ (forElements indexElement (block.length + 1) s) 4 _ _ :=
      runs_forElements hpos 4 (fun type v _ hv => ⟨_, valueComes_of_ne (indexLayout_ne type),
        runs_indexElement hpos hv type⟩) le_rfl (by omega) (by omega)
    have hwithin : Runs block 0 (within 4 (block.length - 5) (forElements indexElement
        (block.length + 1) [])) 0 _ _ := runs_within le_rfl (by omega) (hruns [])
    have hplace : (⟨block, 0, 0⟩ : BsonReader) = place block 0 0 := rfl
    rw [hplace, hwithin.ended_iff, ← hend, and_iff_right hfive, hcomes.iff]
    rw [← map_ne_negative_iff (c := 0)]
    cases finding <;> rfl
  · have hneg : (block.length : ℤ) - 5 < 0 := by omega
    rw [within, if_pos hneg]
    exact iff_of_false id fun h => hfive h.1

theorem ended_ldecode_iff (h : IsBlock block) : Ended (ldecode block) ↔
    5 ≤ block.length ∧ (block.getLast? = some 0 →
      ¬Comes decodeLayout block (block.length - 1) 4 (.error .negative)) := by
  have hlt := h.lt
  obtain ⟨out, hcomes, hruns⟩ : ∃ out, ValueComes decodeLayout block block.length .document 0 out ∧
      ∀ array, Runs block block.length (unpackDict (block.length + 1) array) 0 out _ :=
    runs_unpackDict le_rfl (by omega) (Nat.zero_le _) (by omega)
  have hplace : (⟨block, 0, getLength block⟩ : BsonReader) = place block block.length 0 := by
    rw [h.2, place, show ((0 : ℕ) : ℤ) = 0 from rfl, Int.sub_zero]
  have hfour : skip block.length 4 0 = .ok 4 := by
    rw [skip, if_neg (by have := h.1; omega), if_neg (by decide)]
    rfl
  have hends := document_ends h.size hfour
  rw [ldecode, hplace, (hruns false).ended_iff]
  rw [ValueComes, show decodeLayout .document = .document from rfl] at hcomes
  by_cases hfive : 5 ≤ block.length
  · have hsize : skip block.length (block.length - 5) 4 = .ok (block.length - 1) := by
      rw [skip, if_neg (by omega), if_neg (by omega)]
      exact congrArg Except.ok (by omega)
    have hone : skip block.length 1 (block.length - 1) = .ok block.length := by
      rw [skip, if_neg (by omega), if_neg (by decide)]
      exact congrArg Except.ok (by omega)
    rw [hsize] at hends
    change _ = (skip block.length 1 (block.length - 1) >>= _) at hends
    rw [hone] at hends
    change _ = ite _ _ _ at hends
    have hiff : _ ↔ block.getLast? = some 0 := headD_slice_last (by omega)
    by_cases hlast : block.getLast? = some 0
    · rw [if_neg (not_not.mpr (hiff.mpr hlast))] at hends
      rw [hends] at hcomes
      simp only [if_true] at hcomes
      obtain ⟨finding, hcomes, rfl⟩ := hcomes
      rw [and_iff_right hfive, imp_iff_right hlast, hcomes.iff, map_ne_negative_iff]
    · rw [if_pos (mt hiff.mp hlast)] at hends
      rw [hends] at hcomes
      obtain rfl : out = _ := hcomes
      exact iff_of_true (by simp) ⟨hfive, fun h => absurd h hlast⟩
  · have hsize : skip block.length (block.length - 5) 4 = .error .negative := by
      have hfour := h.1
      rw [skip, if_neg (by omega), if_pos (by omega)]
    rw [hsize] at hends
    rw [hends] at hcomes
    obtain rfl : out = _ := hcomes
    exact iff_of_false (not_not.mpr rfl) fun h => hfive h.1

end Block

end Mtask.Bson
