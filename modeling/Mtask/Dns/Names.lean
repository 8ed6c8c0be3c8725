import Mtask.Dns.Packet
import Mtask.Lib.Orbit
import Mtask.Lib.Outcomes

/-!
# Names in packets

A name is a list of labels, and of places to go on at, which can be anywhere in the packet: the loop
over a name ends unless it comes back to a place where it has been. A name of a query comes back as it
was if none of its labels is empty: the empty ones are left out.
-/

namespace Mtask.Dns

open Buffers Lua Orbit Outcomes
open List

/-! ### The end of a name -/

/-- The place at which the loop over a name goes on. -/
def nextPlace (chunk : Bytes) (left : ℕ) : Option ℕ :=
  match unpackUint chunk 1 left with
  | .error _ => none
  | .ok (tag, _) =>
    if tag &&& 0xc0 = 0xc0 then (unpackUint chunk 2 left).toOption.map (·.1 &&& 0x3fff)
    else if tag = 0 then none
    else (unpackString chunk 1 left).toOption.map Prod.snd

/-- The function has come to an end: with an error, or with a place of the packet. -/
def Settled (chunk : Bytes) (r : Except DnsFault (Bytes × ℕ)) : Prop :=
  Post r (· ≠ .running) (·.2 ≤ chunk.length)

section Ends

variable {chunk : Bytes} {left fuel : ℕ}

theorem settled_unpackBytes (chunk : Bytes) (n left : ℕ) :
    Settled chunk (unpackBytes chunk n left) := by
  rw [unpackBytes]
  split_ifs with hlt hshort
  · exact nofun
  · exact nofun
  · exact Nat.le_of_not_lt hshort

theorem post_unpackUint (chunk : Bytes) (n left : ℕ) :
    Post (unpackUint chunk n left) (· ≠ .running) (·.2 ≤ chunk.length) :=
  (settled_unpackBytes chunk n left).bind fun _ h => h

theorem settled_unpackString (chunk : Bytes) (n left : ℕ) :
    Settled chunk (unpackString chunk n left) :=
  (post_unpackUint chunk n left).bind fun _ _ => settled_unpackBytes chunk _ _

variable {jump : Option ℕ} {t : List Bytes}

theorem nameLoop_cases (fuel : ℕ) (hjump : ∀ p ∈ jump, p ≤ chunk.length) :
    (∃ next t' jump', nextPlace chunk left = some next ∧ (∀ p ∈ jump', p ≤ chunk.length) ∧
      nameLoop chunk (fuel + 1) left t jump = nameLoop chunk fuel next t' jump') ∨
    (nextPlace chunk left = none ∧ Settled chunk (nameLoop chunk (fuel + 1) left t jump)) := by
  rw [nameLoop, nextPlace]
  cases htag : unpackUint chunk 1 left with
  | error fault => exact .inr ⟨rfl, (post_unpackUint chunk 1 left).of_error htag⟩
  | ok r =>
    have hle := (post_unpackUint chunk 1 left).of_ok htag
    rw [ok_bind]
    simp only
    split_ifs with hpointer hzero
    · cases hoffset : unpackUint chunk 2 left with
      | error fault => exact .inr ⟨rfl, (post_unpackUint chunk 2 left).of_error hoffset⟩
      | ok r' =>
        refine .inl ⟨_, t, jump.or (some r'.2), rfl, fun p hp => ?_, rfl⟩
        cases jump with
        | none =>
          obtain rfl := Option.some.inj hp
          exact (post_unpackUint chunk 2 left).of_ok hoffset
        | some q => exact hjump p hp
    · refine .inr ⟨rfl, ?_⟩
      cases jump with
      | none => exact hle
      | some q => exact hjump q rfl
    · cases hstring : unpackString chunk 1 left with
      | ok r' => exact .inl ⟨_, _, jump, rfl, hjump, rfl⟩
      | error fault => exact .inr ⟨rfl, (settled_unpackString chunk 1 left).of_error hstring⟩

/-- **How many rounds the loop takes.** -/
theorem settled_iff (hjump : ∀ p ∈ jump, p ≤ chunk.length) :
    Settled chunk (nameLoop chunk fuel left t jump) ↔ walk (nextPlace chunk) fuel left = none := by
  induction fuel generalizing left t jump with
  | zero => exact ⟨fun h => absurd rfl h, fun h => nomatch h⟩
  | succ fuel ih =>
    rw [walk]
    rcases nameLoop_cases fuel hjump with ⟨next, t', jump', hnext, hjump', heq⟩ | ⟨hnone, h⟩
    · rw [hnext, heq, ih hjump', Option.bind_some]
    · rw [hnone, Option.bind_none]
      exact ⟨fun _ => rfl, fun _ => h⟩

theorem lt_of_nextPlace (h : (nextPlace chunk left).isSome) : left < chunk.length := by
  by_contra hge
  have hshort : ∃ message, unpackUint chunk 1 left = .error (.raised message) := by
    rw [unpackUint, unpackBytes]
    split_ifs
    · exact ⟨_, rfl⟩
    · exact ⟨_, rfl⟩
    · omega
  obtain ⟨message, htag⟩ := hshort
  rw [nextPlace, htag] at h
  cases h

/-- If no place is come back to, there are not more rounds than places. -/
theorem walk_eq_none (h : ¬Returns (nextPlace chunk) left) :
    walk (nextPlace chunk) (chunk.length + 1) left = none :=
  Option.not_isSome_iff_eq_none.mp fun hsome => h (returns_of_walk (fun _ => lt_of_nextPlace) hsome)

theorem unpackName_settled (h : ¬Returns (nextPlace chunk) left) :
    Settled chunk (unpackName (chunk.length + 1) chunk left) :=
  (settled_iff (by simp)).mpr (walk_eq_none h)

/-! ### The datagrams -/

/-- The function has come to an end. -/
def Ended {α : Type} (r : Except DnsFault α) : Prop := Post r (· ≠ .running) fun _ => True

theorem Ended.bind {α β : Type} {r : Except DnsFault α} {f : α → Except DnsFault β} (h : Ended r)
    (hf : ∀ a, Ended (f a)) : Ended (r >>= f) :=
  Post.bind h fun a _ => hf a

theorem ended_unpackUint (chunk : Bytes) (n left : ℕ) : Ended (unpackUint chunk n left) :=
  (post_unpackUint chunk n left).mono (fun _ => id) fun _ _ => trivial

theorem ended_unpackUints (chunk : Bytes) (n k left : ℕ) : Ended (unpackUints chunk n k left) := by
  induction k generalizing left with
  | zero => trivial
  | succ k ih => exact (ended_unpackUint chunk n left).bind fun r => (ih r.2).bind fun _ => trivial

theorem ended_unpackRdata (qtype : ℕ) (rdata : Bytes) : Ended (unpackRdata qtype rdata) := by
  rw [unpackRdata]
  split_ifs
  · exact (ended_unpackUints rdata 1 4 0).bind fun _ => trivial
  · exact (ended_unpackUints rdata 2 8 0).bind fun _ => trivial
  · exact nofun

section Straight

variable (h : ∀ left, ¬Returns (nextPlace chunk) left)

include h

theorem ended_unpackQuestion (left : ℕ) : Ended (unpackQuestion (chunk.length + 1) chunk left) := by
  have hname : Ended (unpackName (chunk.length + 1) chunk left) :=
    (unpackName_settled (h left)).mono (fun _ => id) fun _ _ => trivial
  exact hname.bind fun r => (ended_unpackUint chunk 2 r.2).bind fun r' =>
    (ended_unpackUint chunk 2 r'.2).bind fun _ => trivial

theorem ended_unpackAnswer (left : ℕ) : Ended (unpackAnswer (chunk.length + 1) chunk left) := by
  have hstring (left : ℕ) : Ended (unpackString chunk 2 left) :=
    (settled_unpackString chunk 2 left).mono (fun _ => id) fun _ _ => trivial
  exact (ended_unpackQuestion h left).bind fun r => (ended_unpackUint chunk 4 r.2).bind fun r' =>
    (hstring r'.2).bind fun _ => trivial

theorem ended_answersLoop (qtype n left : ℕ) :
    Ended (answersLoop (chunk.length + 1) chunk qtype n left) := by
  induction n generalizing left with
  | zero => trivial
  | succ n ih =>
    refine (ended_unpackAnswer h left).bind fun r => ?_
    simp only
    split_ifs
    · exact (ended_unpackRdata qtype _).bind fun _ => (ih r.2).bind fun _ => trivial
    · exact ih r.2

/-- A datagram in which no place leads back to itself does not keep `resolve` from coming to its
end. -/
theorem ended_resolve (pool : ℕ → Option Request) : Ended (resolve (chunk.length + 1) pool chunk) := by
  rw [resolve]
  split_ifs
  · trivial
  · refine (ended_unpackUint chunk 2 0).bind fun r => (ended_unpackUint chunk 2 4).bind fun r' =>
      (ended_unpackUint chunk 2 6).bind fun r'' => ?_
    simp only
    split_ifs
    · exact nofun
    · cases pool r.1 with
      | none => trivial
      | some resp =>
        refine (ended_unpackQuestion h _).bind fun q => ?_
        split_ifs
        · trivial
        · exact (ended_answersLoop h _ _ _).bind fun _ => trivial

end Straight

theorem nameLoop_eq_running (hjump : ∀ p ∈ jump, p ≤ chunk.length)
    (h : (walk (nextPlace chunk) fuel left).isSome) :
    nameLoop chunk fuel left t jump = .error .running := by
  induction fuel generalizing left t jump with
  | zero => rfl
  | succ fuel ih =>
    rcases nameLoop_cases fuel hjump with ⟨next, t', jump', hnext, hjump', heq⟩ | ⟨hnone, -⟩
    · rw [walk, hnext] at h
      rw [heq]
      exact ih hjump' h
    · rw [walk, hnone] at h
      cases h

theorem unpackName_eq_running (h : Returns (nextPlace chunk) left) (fuel : ℕ) :
    unpackName fuel chunk left = .error .running :=
  nameLoop_eq_running (by simp) (walk_isSome_of_returns h fuel)

/-- **The packets for which the loop ends.** -/
theorem names_end_iff (chunk : Bytes) :
    (∀ left, (∃ fuel, Settled chunk (unpackName fuel chunk left)) ↔
      ¬Returns (nextPlace chunk) left) ∧
    ((∀ left, ¬Returns (nextPlace chunk) left) →
      ∀ pool, Ended (resolve (chunk.length + 1) pool chunk)) := by
  refine ⟨fun left => ⟨?_, fun h => ⟨_, unpackName_settled h⟩⟩, ended_resolve⟩
  rintro ⟨fuel, hsettled⟩ hreturns
  rw [unpackName_eq_running hreturns] at hsettled
  exact hsettled rfl

/-- A datagram whose question is a pointer to itself. -/
def selfPointer : Bytes := [0, 1, 0x81, 0x80, 0, 1, 0, 0, 0, 0, 0, 0, 0xc0, 12, 0, 1, 0, 1]

/-- A pointer to itself keeps the service busy. -/
theorem names_end_fails : (¬∃ fuel, Settled selfPointer (unpackName fuel selfPointer 12)) ∧
    ¬∃ fuel, Ended (resolve fuel (fun _ => some ⟨[97], qtypeA, 0⟩) selfPointer) := by
  have hname (fuel : ℕ) : unpackName fuel selfPointer 12 = .error .running :=
    unpackName_eq_running ⟨0, 1, 12, by decide, rfl, by decide⟩ fuel
  have htid : unpackUint selfPointer 2 0 = .ok (1, 2) := rfl
  have hqdcount : unpackUint selfPointer 2 4 = .ok (1, 6) := rfl
  have hancount : unpackUint selfPointer 2 6 = .ok (0, 8) := rfl
  have hresolve (fuel : ℕ) :
      resolve fuel (fun _ => some ⟨[97], qtypeA, 0⟩) selfPointer = .error .running := by
    rw [resolve, if_neg (by decide), htid, hqdcount, hancount, unpackQuestion, dnsHeaderLen,
      hname fuel]
    rfl
  constructor
  · rintro ⟨fuel, h⟩
    rw [hname fuel] at h
    exact h rfl
  · rintro ⟨fuel, h⟩
    rw [hresolve fuel] at h
    exact h rfl

end Ends

/-! ### The names that come back -/

/-- The bytes of some labels. -/
def labelBytes (ls : List Bytes) : Bytes := (ls.map fun l => .ofNat l.length :: l).flatten

/-- The bytes of a number of 16 bits. -/
def uint16Bytes (v : ℕ) : Bytes := [.ofNat (v / 256), .ofNat v]

/-- A question in the format of packets, with labels of a length that is allowed. -/
def IsQuestion (ls : List Bytes) (qtype qclass : ℕ) (question : Bytes) : Prop :=
  (∀ l ∈ ls, 0 < l.length ∧ l.length ≤ maxLabelLen) ∧
    question = labelBytes ls ++ [0] ++ (uint16Bytes qtype ++ uint16Bytes qclass)

/-- The question for a name is in the format, and a packet that echoes it has the name of the query. -/
def Echoed (name : Bytes) : Prop :=
  ∀ header rest : Bytes, ∀ qtype < 2 ^ 16, ∀ qclass < 2 ^ 16, header.length = dnsHeaderLen →
    ∃ ls question, packQuestion name qtype qclass = .ok question ∧
      IsQuestion ls qtype qclass question ∧
      ∃ n, ∀ fuel ≥ n, unpackQuestion fuel (header ++ question ++ rest) dnsHeaderLen =
        .ok (⟨name, qtype, qclass⟩, dnsHeaderLen + question.length)

section Echo

variable {name pre rest : Bytes} {ls : List Bytes}

theorem unpackBytes_append (pre bytes rest : Bytes) :
    unpackBytes (pre ++ bytes ++ rest) bytes.length pre.length =
      .ok (bytes, pre.length + bytes.length) := by
  have hslice : slice (pre ++ bytes ++ rest) pre.length bytes.length = bytes := by
    rw [slice, append_assoc, drop_left, take_left]
  have hlength : (pre ++ bytes ++ rest).length = pre.length + bytes.length + rest.length := by
    rw [length_append, length_append]
  rw [unpackBytes, if_neg (by omega), if_neg (by omega), hslice]

theorem unpackUint_append (pre bytes rest : Bytes) :
    unpackUint (pre ++ bytes ++ rest) bytes.length pre.length =
      .ok (bigEndian bytes, pre.length + bytes.length) := by
  rw [unpackUint, unpackBytes_append]
  rfl

theorem bigEndian_uint16Bytes {v : ℕ} (h : v < 2 ^ 16) : bigEndian (uint16Bytes v) = v := by
  change (0 * 256 + v / 256 % 256) * 256 + v % 256 = v
  omega

theorem packUint_two {v : ℕ} (h : v < 2 ^ 16) : packUint 2 v = .ok (uint16Bytes v) := by
  rw [packUint, if_pos (show v < 256 ^ 2 from h)]
  simp [range_succ, uint16Bytes]

theorem label_tag {n : ℕ} (hle : n ≤ maxLabelLen) :
    (UInt8.ofNat n).toNat = n ∧ n &&& 0xc0 ≠ 0xc0 := by
  have hall : ∀ n < 64, (UInt8.ofNat n).toNat = n ∧ n &&& 0xc0 ≠ 0xc0 := by decide
  exact hall n (Nat.lt_succ_of_le hle)

variable {fuel : ℕ}

theorem nameLoop_labels (hls : ∀ l ∈ ls, 0 < l.length ∧ l.length ≤ maxLabelLen) (pre rest : Bytes)
    (t : List Bytes) (hfuel : ls.length < fuel) :
    nameLoop (pre ++ (labelBytes ls ++ [0]) ++ rest) fuel pre.length t none =
      .ok ([dot].intercalate (t ++ ls), pre.length + (labelBytes ls ++ [0]).length) := by
  obtain ⟨fuel, rfl⟩ := Nat.exists_eq_add_one_of_ne_zero (Nat.ne_of_gt (Nat.zero_lt_of_lt hfuel))
  induction ls generalizing pre t fuel with
  | nil =>
    have htag := unpackUint_append pre [0] rest
    rw [length_singleton] at htag
    rw [labelBytes, map_nil, flatten_nil, nil_append, nameLoop, htag, append_nil]
    rfl
  | cons l ls ih =>
    obtain ⟨hpos, hle⟩ := hls l mem_cons_self
    obtain ⟨htoNat, hpointer⟩ := label_tag hle
    have hbytes : pre ++ (labelBytes (l :: ls) ++ [0]) ++ rest =
        pre ++ [.ofNat l.length] ++ (l ++ ((labelBytes ls ++ [0]) ++ rest)) := by
      simp [labelBytes]
    have hbytes' : pre ++ [.ofNat l.length] ++ (l ++ ((labelBytes ls ++ [0]) ++ rest)) =
        (pre ++ [.ofNat l.length] ++ l) ++ (labelBytes ls ++ [0]) ++ rest := by
      simp only [append_assoc]
    have htag := unpackUint_append pre [.ofNat l.length] (l ++ ((labelBytes ls ++ [0]) ++ rest))
    have hlabel := unpackBytes_append (pre ++ [.ofNat l.length]) l ((labelBytes ls ++ [0]) ++ rest)
    have hnumber : bigEndian [.ofNat l.length] = l.length := (Nat.zero_add _).trans htoNat
    rw [length_singleton, hnumber] at htag
    rw [append_assoc _ l, length_append, length_singleton] at hlabel
    have hstring : unpackString (pre ++ [.ofNat l.length] ++ (l ++ ((labelBytes ls ++ [0]) ++ rest))) 1
        pre.length = .ok (l, pre.length + 1 + l.length) := by
      rw [unpackString, htag]
      exact hlabel
    have hlt := Nat.lt_of_succ_lt_succ hfuel
    obtain ⟨fuel, rfl⟩ := Nat.exists_eq_add_one_of_ne_zero (Nat.ne_of_gt (Nat.zero_lt_of_lt hlt))
    have hrest := ih (fun l' hl' => hls l' (mem_cons_of_mem _ hl')) (pre ++ [.ofNat l.length] ++ l)
      (t ++ [l]) fuel hlt
    rw [length_append, length_append, length_singleton] at hrest
    rw [hbytes, nameLoop, htag]
    change (if l.length &&& 0xc0 = 0xc0 then _ else if l.length = 0 then _ else _) = _
    rw [if_neg hpointer, if_neg (Nat.ne_of_gt hpos), hstring]
    change nameLoop _ _ _ (t ++ [l]) none = _
    rw [hbytes', hrest, append_assoc]
    simp only [labelBytes, map_cons, flatten_cons, length_append, length_cons,
      singleton_append, Except.ok.injEq, Prod.mk.injEq, true_and]
    omega

theorem mapM_packString (h : ∀ l ∈ ls, l.length < 256) :
    ls.mapM packString = .ok (ls.map fun l => .ofNat l.length :: l) := by
  induction ls with
  | nil => rfl
  | cons l ls ih =>
    rw [mapM_cons, packString, if_pos (h l mem_cons_self),
      ih fun l' hl' => h l' (mem_cons_of_mem _ hl')]
    rfl

theorem packQuestion_eq {qtype qclass : ℕ} (hlabels : ∀ l ∈ labels name, l.length ≤ maxLabelLen)
    (hqtype : qtype < 2 ^ 16) (hqclass : qclass < 2 ^ 16) : packQuestion name qtype qclass =
      .ok (labelBytes (labels name) ++ [0] ++ (uint16Bytes qtype ++ uint16Bytes qclass)) := by
  have hshort : ∀ l ∈ labels name, l.length < 256 := fun l hl =>
    Nat.lt_of_le_of_lt (hlabels l hl) (by decide)
  rw [packQuestion, mapM_packString hshort, packUint_two hqtype, packUint_two hqclass]
  rfl

theorem unpackQuestion_echo (header : Bytes) {qtype qclass : ℕ} (hqtype : qtype < 2 ^ 16)
    (hqclass : qclass < 2 ^ 16) (hls : ∀ l ∈ ls, 0 < l.length ∧ l.length ≤ maxLabelLen)
    (rest : Bytes) (hfuel : ls.length < fuel) : unpackQuestion fuel (header ++
        (labelBytes ls ++ [0] ++ (uint16Bytes qtype ++ uint16Bytes qclass)) ++ rest) header.length =
      .ok (⟨[dot].intercalate ls, qtype, qclass⟩, header.length +
        (labelBytes ls ++ [0] ++ (uint16Bytes qtype ++ uint16Bytes qclass)).length) := by
  have hname := nameLoop_labels hls header (uint16Bytes qtype ++ (uint16Bytes qclass ++ rest)) [] hfuel
  have hqt := unpackUint_append (header ++ (labelBytes ls ++ [0])) (uint16Bytes qtype)
    (uint16Bytes qclass ++ rest)
  have hqc := unpackUint_append (header ++ (labelBytes ls ++ [0]) ++ uint16Bytes qtype)
    (uint16Bytes qclass) rest
  rw [bigEndian_uint16Bytes hqtype, length_append] at hqt
  rw [bigEndian_uint16Bytes hqclass, length_append, length_append] at hqc
  simp only [append_assoc] at hname hqt hqc ⊢
  rw [unpackQuestion, unpackName, hname]
  change unpackUint _ 2 _ >>= _ = _
  rw [show 2 = (uint16Bytes qtype).length from rfl, hqt]
  change unpackUint _ 2 _ >>= _ = _
  rw [show 2 = (uint16Bytes qclass).length from rfl, hqc]
  simp [Nat.add_assoc]
  rfl

theorem isLabelChar_of_isNameChar {c : UInt8} (h : isNameChar c) : (!isLabelChar c) = (c == dot) := by
  have hall : ∀ n < 256, isNameChar (.ofNat n) → (!isLabelChar (.ofNat n)) = (.ofNat n == dot) := by
    decide +kernel
  have hc : UInt8.ofNat c.toNat = c := UInt8.ofNat_toNat
  exact hc ▸ hall c.toNat c.toNat_lt (hc.symm ▸ h)

theorem labels_eq (h : name.all isNameChar) : labels name = (name.splitOn dot).filter (· ≠ []) := by
  have hsame : ∀ c ∈ name, (!isLabelChar c) = (c == dot) := fun c hc =>
    isLabelChar_of_isNameChar (all_eq_true.mp h c hc)
  rw [labels, splitOn_eq_splitOnP]
  congr 1
  clear h
  induction name with
  | nil => rfl
  | cons c name ih =>
    rw [splitOnP_cons_eq_if_modifyHead, splitOnP_cons_eq_if_modifyHead,
      hsame c mem_cons_self, ih fun c' hc' => hsame c' (mem_cons_of_mem _ hc')]

theorem isLabelChar_of_mem {l : Bytes} (h : l ∈ name.splitOnP (!isLabelChar ·)) :
    ∀ c ∈ l, isLabelChar c := by
  induction name generalizing l with
  | nil =>
    rw [mem_singleton.mp h]
    exact fun c hc => absurd hc not_mem_nil
  | cons c name ih =>
    rw [splitOnP_cons_eq_if_modifyHead] at h
    split_ifs at h with hc
    · rcases mem_cons.mp h with rfl | h
      · exact fun c hc => absurd hc not_mem_nil
      · exact ih h
    · cases hsplit : name.splitOnP (!isLabelChar ·) with
      | nil => exact absurd hsplit (splitOnP_ne_nil _ _)
      | cons l' ls =>
        rw [hsplit] at h ih
        rcases mem_cons.mp h with rfl | h
        · exact forall_mem_cons.mpr ⟨by simpa using hc, ih mem_cons_self⟩
        · exact ih (mem_cons_of_mem _ h)

theorem intercalate_labels_iff (hne : name ≠ []) (h : name.all isNameChar) :
    [dot].intercalate (labels name) = name ↔ [] ∉ name.splitOn dot := by
  constructor
  · intro heq hmem
    have hnot : ∀ l ∈ labels name, dot ∉ l := fun l hl hdot =>
      absurd (isLabelChar_of_mem (mem_filter.mp hl).1 dot hdot) (by decide)
    have hnil : labels name ≠ [] := fun hnil => hne (by rw [← heq, hnil]; rfl)
    rw [← heq, splitOn_intercalate _ hnot hnil] at hmem
    exact of_decide_eq_true (mem_filter.mp hmem).2 rfl
  · intro hnot
    have hall : ∀ l ∈ name.splitOn dot, decide (l ≠ []) = true := fun l hl =>
      decide_eq_true fun hnil => hnot (hnil ▸ hl)
    rw [labels_eq h, filter_eq_self.mpr hall, intercalate_splitOn]

theorem verifyDomainName_iff : verifyDomainName name ↔ name.length ≤ maxDomainLen ∧ name ≠ [] ∧
    name.all isNameChar ∧ ∀ l ∈ labels name, l.length ≤ maxLabelLen := by
  simp only [verifyDomainName, Bool.and_eq_true, decide_eq_true_eq, all_eq_true, and_assoc]

theorem echoed_of_verify (hname : verifyDomainName name) :
    Echoed name ↔ [dot].intercalate (labels name) = name := by
  obtain ⟨-, -, -, hlabels⟩ := verifyDomainName_iff.mp hname
  have hls : ∀ l ∈ labels name, 0 < l.length ∧ l.length ≤ maxLabelLen := fun l hl =>
    ⟨length_pos_of_ne_nil (of_decide_eq_true (mem_filter.mp hl).2), hlabels l hl⟩
  have hecho (header rest : Bytes) {qtype qclass : ℕ} (hqtype : qtype < 2 ^ 16)
      (hqclass : qclass < 2 ^ 16) (hlength : header.length = dnsHeaderLen) {fuel : ℕ}
      (hfuel : (labels name).length < fuel) :=
    hlength ▸ unpackQuestion_echo header hqtype hqclass hls rest hfuel
  constructor
  · intro h
    obtain ⟨ls, question, hpack, -, n, hunpack⟩ :=
      h (List.replicate dnsHeaderLen 0) [] qtypeA (by decide) qclassIN (by decide) rfl
    rw [packQuestion_eq hlabels (by decide) (by decide)] at hpack
    obtain rfl := Except.ok.inj hpack
    have hread := hecho (List.replicate dnsHeaderLen 0) [] (show qtypeA < 2 ^ 16 by decide)
      (show qclassIN < 2 ^ 16 by decide) rfl (Nat.lt_of_lt_of_le (Nat.lt_succ_self _)
        (Nat.le_max_left _ n))
    rw [hunpack _ (Nat.le_max_right _ n)] at hread
    exact (congrArg Question.name (congrArg Prod.fst (Except.ok.inj hread))).symm
  · intro heq header rest qtype hqtype qclass hqclass hlength
    refine ⟨labels name, _, packQuestion_eq hlabels hqtype hqclass, ⟨hls, rfl⟩,
      (labels name).length + 1, fun fuel hfuel => ?_⟩
    have hread := hecho header rest hqtype hqclass hlength hfuel
    rw [heq] at hread
    exact hread

/-- **The names that come back.** -/
theorem echoed_iff (hname : verifyDomainName name) : Echoed name ↔ [] ∉ name.splitOn dot := by
  obtain ⟨-, hne, hall, -⟩ := verifyDomainName_iff.mp hname
  rw [echoed_of_verify hname, intercalate_labels_iff hne hall]

/-- A name that ends with a dot does not come back. -/
theorem echoed_fails : verifyDomainName [97, dot] ∧ ¬Echoed [97, dot] := by
  have hname : verifyDomainName [97, dot] = true := by decide
  refine ⟨hname, fun h => ?_⟩
  have heq := (echoed_of_verify hname).mp h
  revert heq
  decide

/-- A name without empty labels. -/
theorem echoed_iff_plain : Echoed [97, dot, 98] :=
  (echoed_iff (by decide)).mpr (by decide)

end Echo

end Mtask.Dns
