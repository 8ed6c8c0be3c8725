import Mtask.Sproto.Create

/-!
# What the loader of schemas relies on

`sproto_create` reads nothing outside of the bundle, comes to an end and returns a schema in order,
or nothing, as long as everything that it relies on is so: the arrays and strings that it follows
are inside of the bundle, no element of an array that it passes has a length that wraps around, and
no type comes with an empty array of fields.
-/

namespace Mtask.Sproto

open Buffers LittleEndian Outcomes

/-- What the loader relies on is so. -/
def Trusted.Fits (data : List UInt8) : Trusted → Prop
  | .array i => i + 4 + sectionLength data i ≤ data.length
  | .string i => i + 4 + sectionLength data i ≤ data.length
  | .element i => sectionLength data i < 2 ^ 32 - 4
  | .fields n => n ≠ 0

instance (data : List UInt8) : DecidablePred (Trusted.Fits data)
  | .array i => inferInstanceAs (Decidable (i + 4 + sectionLength data i ≤ data.length))
  | .string i => inferInstanceAs (Decidable (i + 4 + sectionLength data i ≤ data.length))
  | .element i => inferInstanceAs (Decidable (sectionLength data i < 2 ^ 32 - 4))
  | .fields n => inferInstanceAs (Decidable (n ≠ 0))

/-- The index of a type of a field is below `n`. -/
def Field.TypeLt (n : ℕ) (f : Field) : Prop :=
  ∀ i, f.type = .struct i → i < n

/-- The types are in order, and every index of a type is one. -/
structure Schema.Valid (s : Schema) : Prop where
  consistent : ∀ t ∈ s.type, t.Consistent
  field_lt : ∀ t ∈ s.type, ∀ f ∈ t.f, f.TypeLt s.type.length
  request_lt : ∀ p ∈ s.proto, ∀ i, p.request = some i → i < s.type.length
  response_lt : ∀ p ∈ s.proto, ∀ i, p.response = some i → i < s.type.length

/-- The end of a call of `sproto_create` that has read nothing outside of the bundle: `NULL`, or a
schema in order. -/
def LoadsSafely (data : List UInt8) : Prop :=
  Post (sprotoCreate data).outcome (· = .fail) Schema.Valid

/-- A pass that ends in order or with `NULL` if what it relies on is so. -/
abbrev Loads {α : Type} (data : List UInt8) (x : Loading α) (Q : α → Prop) : Prop :=
  Logged.Post (Trusted.Fits data) x (· = .fail) Q

/-- `n` elements, each behind its length, that fill `length` bytes from `stream` on. -/
def Tiles (data : List UInt8) : ℕ → ℕ → ℕ → Prop
  | 0, _, length => length = 0
  | n + 1, stream, length =>
    sectionLength data stream + 4 ≤ length ∧
      Tiles data n (stream + (sectionLength data stream + 4))
        (length - (sectionLength data stream + 4))

section

variable {data : List UInt8}

variable {stream n i : ℕ}

theorem structFields_spec {field sz : ℕ} (hs : stream + sz ≤ data.length)
    (hf : field + (i + n) * 2 ≤ data.length) :
    Post (structFields data field n i stream sz) (· = .fail) fun _ =>
      0 < n → ofBytes (slice data (field + i * 2) 2) = 0 → 4 ≤ sz := by
  induction n generalizing i stream sz with
  | zero => exact fun h => absurd h (Nat.lt_irrefl 0)
  | succ n ih =>
    refine .bind (toword_of_le (by rw [sizeofField]; omega)) fun value hv => ?_
    rw [sizeofField] at hv
    refine .ite (fun hne => ?_) fun h0 => .ite (fun _ => rfl) fun h4 => ?_
    · exact (ih hs (by omega)).mono (fun _ h => h) fun _ _ _ h => absurd (hv.trans h) hne
    · rw [sizeofLength] at h4 ⊢
      refine .bind (toword_of_le (by omega)) fun dsz hd => .ite (fun _ => rfl) fun hle => ?_
      exact (ih (by omega) (by omega)).mono (fun _ h => h) fun _ _ _ _ => by omega

/-- `struct_field` reads within its range, and leaves room for the first section. -/
theorem structField_spec {sz : ℕ} (hs : stream + sz ≤ data.length) :
    Post (structField data stream sz) (· = .fail) fun fn => 2 + 2 * fn ≤ sz ∧
      (0 < fn → ofBytes (slice data (stream + 2) 2) = 0 → 2 + 2 * fn + 4 ≤ sz) := by
  refine .ite (fun _ => rfl) fun h4 => ?_
  rw [sizeofLength] at h4
  refine .bind (toword_of_le (by omega)) fun fn _ => ?_
  rw [sizeofHeader, sizeofField]
  refine .ite (fun _ => rfl) fun hle => ?_
  refine .bind (structFields_spec (i := 0) (by omega) (by omega)) fun _ h => ?_
  refine ⟨by omega, fun hpos hz => ?_⟩
  have := h hpos (by rwa [Nat.zero_mul, Nat.add_zero])
  omega

variable {length : ℕ}

theorem countRound_spec (h : stream + length ≤ data.length) :
    Post (countRound data stream length) (· = .fail) fun r => 4 ≤ length ∧
      r = (stream + (sectionLength data stream + 4) % 2 ^ 32,
        length - (sectionLength data stream + 4) % 2 ^ 32) ∧
      (sectionLength data stream + 4) % 2 ^ 32 ≤ length := by
  refine .ite (fun _ => rfl) fun h4 => ?_
  rw [sizeofLength] at h4 ⊢
  refine .bind (todword_of_le (by omega)) fun sz hsz => ?_
  subst hsz
  exact .ite (fun _ => rfl) fun hle => ⟨by omega, rfl, by omega⟩

/-- The loop of `count_array` ends, and the elements that it has counted fill the array. -/
theorem countElements_spec (h : stream + length ≤ data.length) :
    Loads data (countElements data stream length n) fun m =>
      ∃ k, m = n + k ∧ Tiles data k stream length := by
  induction hl : length using Nat.strongRecOn generalizing stream n length with
  | ind l ih =>
    subst hl
    rw [countElements]
    refine .ite (fun h0 => ?_) fun h0 => ?_
    · rw [Logged.post_pure]
      exact ⟨0, rfl, h0⟩
    refine .bind (.of_lift (countRound_spec h)) fun r ⟨h4, hr, hle⟩ => ?_
    refine .bind (Q := fun _ => sectionLength data stream < 2 ^ 32 - 4) (.of_note fun hw => hw)
      fun _ hw => ?_
    rw [Nat.mod_eq_of_lt (by omega)] at hr hle
    subst hr
    refine .ite (fun hlt => ?_) fun hge => absurd hge (by simp only; omega)
    refine (ih _ hlt (by simp only; omega) rfl).mono (fun _ h => h) fun m ⟨k, hm, hk⟩ => ?_
    exact ⟨k + 1, by omega, hle, hk⟩

theorem countArray_spec : Loads data (countArray data stream) fun n =>
    stream + 4 + sectionLength data stream ≤ data.length ∧
      Tiles data n (stream + 4) (sectionLength data stream) := by
  refine .bind (Q := fun _ => stream + 4 + sectionLength data stream ≤ data.length)
    (.of_note fun hw => hw) fun _ hw => ?_
  refine .bind (.of_lift (todword_of_le (by omega))) fun length hl => ?_
  subst hl
  refine (countElements_spec hw).mono (fun _ h => h) fun n ⟨k, hn, hk⟩ => ?_
  rw [Nat.zero_add] at hn
  subst hn
  exact ⟨hw, hk⟩

theorem importString_spec : Loads data (importString data stream) fun _ =>
    stream + 4 + sectionLength data stream ≤ data.length := by
  refine .bind (Q := fun _ => stream + 4 + sectionLength data stream ≤ data.length)
    (.of_note fun hw => hw) fun _ hw => ?_
  refine .bind (.of_lift (todword_of_le (by omega))) fun sz hsz => ?_
  subst hsz
  exact .of_lift ((get_of_le hw).mono (fun _ h => h) fun _ _ => hw)

/-! ### Fields -/

/-- What has been stored of a field is in its range. -/
structure FieldVars.Valid (typeN : ℕ) (v : FieldVars) : Prop where
  tag_lt : ∀ t, v.tag = some t → t < 0x7fff
  type_lt : ∀ i, v.type = some (.struct i) → i < typeN

variable {typeN : ℕ}

theorem FieldVars.Valid.set {tag value : ℕ} {v v' : FieldVars} (h : v.Valid typeN)
    (hv : value < 0x7fff) (hset : v.set typeN tag value = some v') : v'.Valid typeN := by
  obtain ⟨htag, htype⟩ := h
  unfold FieldVars.set at hset
  split at hset
  · split at hset <;> cases hset
    refine ⟨htag, fun i hi => ?_⟩
    have : buildin value = .struct i := Option.some.inj hi
    unfold buildin at this
    split at this <;> cases this
  · split at hset
    · cases hset
    · split at hset <;> cases hset
      refine ⟨htag, fun i hi => ?_⟩
      cases Option.some.inj hi
      omega
  · cases hset
    refine ⟨fun t ht => ?_, htype⟩
    cases Option.some.inj ht
    exact hv
  · split at hset <;> cases hset <;> exact ⟨htag, htype⟩
  · cases hset
    exact ⟨htag, htype⟩
  · cases hset

theorem fieldRecords_spec {fn tag : ℕ} {v : FieldVars} (hs : stream + 2 * (i + n) ≤ data.length)
    (h : v.Valid typeN) :
    Loads data (fieldRecords data typeN stream fn n i tag v) (FieldVars.Valid typeN) := by
  induction n generalizing i tag v with
  | zero => exact Logged.post_pure.mpr h
  | succ n ih =>
    refine .bind (.of_lift (toword_of_le (by rw [sizeofField]; omega))) fun value hvalue => ?_
    have hlt : value < 2 ^ 16 := hvalue ▸ ofBytes_slice_lt ..
    refine .ite (fun _ => ih (by omega) h) fun _ => .ite (fun _ => ?_) fun _ => ?_
    · refine .ite (fun _ => by simp) fun _ => .bind importString_spec fun name _ => ?_
      exact ih (by omega) ⟨h.tag_lt, h.type_lt⟩
    · refine .ite (fun _ => by simp) fun hne => ?_
      cases hset : v.set typeN tag (value / 2 - 1) with
      | none => simp
      | some v' => exact ih (by omega) (h.set (by omega) hset)

theorem importField_spec (hs : stream + (sectionLength data stream + 4) ≤ data.length) :
    Loads data (importField data typeN stream) fun r =>
      r.2 = stream + (sectionLength data stream + 4) ∧ r.1.tag < 0x7fff ∧ r.1.TypeLt typeN := by
  refine .bind (.of_lift (todword_of_le (by omega))) fun sz hsz => ?_
  subst hsz
  rw [sizeofLength]
  refine .bind (.of_lift (structField_spec (by omega))) fun fn ⟨hfn, _⟩ => ?_
  rw [sizeofHeader]
  refine .bind (fieldRecords_spec (by omega)
    ⟨fun _ h => (by cases h), fun _ h => (by cases h)⟩) fun v hv => ?_
  cases hf : v.toField with
  | none => simp
  | some f =>
    unfold FieldVars.toField at hf
    split at hf
    · rename_i tag type name htag htype hname
      cases hf
      refine Logged.post_pure.mpr ⟨by simp only; omega, hv.tag_lt _ htag, fun i hi => ?_⟩
      exact hv.type_lt i (htype.trans (congrArg some hi))
    · cases hf

/-! ### Types -/

theorem importFields_spec {maxn : ℕ} {last : ℤ} (hlast : -1 ≤ last)
    (hs : stream + length ≤ data.length) (ht : Tiles data n stream length) :
    Loads data (importFields data typeN n stream last maxn) fun r => r.1.length = n ∧
      r.1.Pairwise (·.tag < ·.tag) ∧ (∀ f ∈ r.1, last < f.tag ∧ f.tag < 0x7fff ∧ f.TypeLt typeN) ∧
        r.2 = maxn + gaps (last + 1).toNat r.1 := by
  induction n generalizing stream length maxn last with
  | zero => exact Logged.post_pure.mpr ⟨rfl, .nil, by simp, by simp [gaps]⟩
  | succ n ih =>
    obtain ⟨hle, ht⟩ := ht
    refine .bind (importField_spec (by omega)) fun (f, stream') ⟨hstream, htag, htype⟩ => ?_
    simp only at hstream htag htype ⊢
    subst hstream
    refine .ite (fun _ => by simp) fun hasc => ?_
    refine .bind (ih (by omega) (by omega) ht) fun (fs, maxn') ⟨hlen, hs, hall, hmaxn⟩ => ?_
    simp only at hlen hs hall hmaxn
    refine Logged.post_pure.mpr ⟨by simp [hlen], List.pairwise_cons.mpr ⟨fun g hg => ?_, hs⟩, ?_, ?_⟩
    · have := (hall g hg).1
      omega
    · intro g hg
      rcases List.mem_cons.mp hg with rfl | hg
      · exact ⟨by omega, htag, htype⟩
      · obtain ⟨h1, h2⟩ := hall g hg
        exact ⟨by omega, h2⟩
    · have hnext : ((f.tag : ℤ) + 1).toNat = f.tag + 1 := by omega
      rw [hnext] at hmaxn
      simp only [gaps, hmaxn]
      have : (last + 1 < (f.tag : ℤ)) ↔ (last + 1).toNat < f.tag := by omega
      simp only [this]
      split <;> omega

/-- What `import_type` promises of a type. -/
def TypeData.Loaded (typeN : ℕ) (t : TypeData) : Prop :=
  t.Consistent ∧ ∀ f ∈ t.f, f.TypeLt typeN

theorem importTypeFields_spec {name : List UInt8} :
    Loads data (importTypeFields data typeN name stream) (TypeData.Loaded typeN) := by
  refine .bind countArray_spec fun n ⟨hs, ht⟩ => ?_
  rw [sizeofLength]
  refine .bind (importFields_spec (Int.le_refl _) hs ht)
    fun (f, maxn) ⟨hlen, hasc, hall, hmaxn⟩ => ?_
  refine .bind (Q := fun _ => n ≠ 0) (.of_note fun hw => hw) fun _ hn => ?_
  refine .ite (fun h0 => absurd h0 hn) fun _ => Logged.post_pure.mpr ⟨⟨hasc, ?_, rfl, ?_⟩, ?_⟩
  · exact fun x hx => (hall x hx).2.1
  · simp only at hmaxn hlen ⊢
    rw [hmaxn, hlen]
    rfl
  · exact fun x hx => (hall x hx).2.2

theorem nullRecords_spec (hs : stream + 2 + i + 2 * n ≤ data.length) :
    Loads data (nullRecords data stream n i) fun _ =>
      0 < n → ofBytes (slice data (stream + 2 + i) 2) = 0 := by
  induction n generalizing i with
  | zero => exact Logged.post_pure.mpr fun h => absurd h (Nat.lt_irrefl 0)
  | succ n ih =>
    refine .bind (.of_lift (toword_of_le (by rw [sizeofHeader]; omega))) fun v hv => ?_
    refine .ite (fun _ => by simp) fun h0 => ?_
    rw [not_not] at h0
    refine (ih (by rw [sizeofField]; omega)).mono (fun _ h => h) fun _ _ _ => ?_
    rw [h0] at hv
    exact hv.symm

theorem importType_spec (hs : stream + (sectionLength data stream + 4) ≤ data.length) :
    Loads data (importType data typeN stream) fun r =>
      r.2 = stream + (sectionLength data stream + 4) ∧ r.1.Loaded typeN := by
  refine .bind (.of_lift (todword_of_le (by omega))) fun sz hsz => ?_
  subst hsz
  rw [sizeofLength]
  refine .bind (.of_lift (structField_spec (by omega))) fun fn ⟨hfn, hroom⟩ => ?_
  refine .ite (fun _ => by simp) fun hrange => ?_
  refine .bind (nullRecords_spec (by omega)) fun _ hnull => ?_
  refine .bind importString_spec fun name hname => ?_
  refine .ite (fun _ => Logged.post_pure.mpr ⟨by simp only; omega, ?_⟩) fun _ => ?_
  · exact ⟨⟨.nil, by simp, rfl, rfl⟩, by simp⟩
  · refine .bind (.of_lift (todword_of_le (by omega))) fun sz' _ => ?_
    refine .bind importTypeFields_spec fun t ht => Logged.post_pure.mpr ⟨by simp only; omega, ht⟩

/-! ### Protocols -/

/-- What has been stored of a protocol is in its range. -/
structure ProtocolVars.Valid (typeN : ℕ) (p : ProtocolVars) : Prop where
  request_lt : ∀ i, p.request = some i → i < typeN
  response_lt : ∀ i, p.response = some i → i < typeN

theorem ProtocolVars.Valid.set {value : ℤ} {p p' : ProtocolVars} (h : p.Valid typeN)
    (hset : p.set typeN i value = some p') : p'.Valid typeN := by
  obtain ⟨hq, hr⟩ := h
  unfold ProtocolVars.set at hset
  split at hset
  · split at hset <;> cases hset
    exact ⟨hq, hr⟩
  · split at hset <;> cases hset
    refine ⟨fun i hi => ?_, hr⟩
    cases Option.some.inj hi
    omega
  · split at hset <;> cases hset
    refine ⟨hq, fun i hi => ?_⟩
    cases Option.some.inj hi
    omega
  · cases hset

theorem protocolRecords_spec {fn : ℕ} {p : ProtocolVars} (hs : stream + 2 * (i + n) ≤ data.length)
    (h : p.Valid typeN) :
    Loads data (protocolRecords data typeN stream fn n i p) (ProtocolVars.Valid typeN) := by
  induction n generalizing i p with
  | zero => exact Logged.post_pure.mpr h
  | succ n ih =>
    refine .bind (.of_lift (toword_of_le (by rw [sizeofField]; omega))) fun value _ => ?_
    refine .ite (fun _ => ih (by omega) h) fun _ => .ite (fun _ => ?_) fun _ => ?_
    · refine .ite (fun _ => by simp) fun _ => .bind importString_spec fun name _ => ?_
      exact ih (by omega) ⟨h.request_lt, h.response_lt⟩
    · cases hset : p.set typeN i ((value / 2 : ℕ) - 1) with
      | none => simp
      | some p' => exact ih (by omega) (h.set hset)

/-- What `import_protocol` promises of a protocol. -/
def Protocol.Loaded (typeN : ℕ) (p : Protocol) : Prop :=
  (∀ i, p.request = some i → i < typeN) ∧ ∀ i, p.response = some i → i < typeN

theorem importProtocol_spec (hs : stream + (sectionLength data stream + 4) ≤ data.length) :
    Loads data (importProtocol data typeN stream) fun r =>
      r.2 = stream + (sectionLength data stream + 4) ∧ r.1.Loaded typeN := by
  refine .bind (.of_lift (todword_of_le (by omega))) fun sz hsz => ?_
  subst hsz
  rw [sizeofLength]
  refine .bind (.of_lift (structField_spec (by omega))) fun fn ⟨hfn, _⟩ => ?_
  rw [sizeofHeader]
  refine .bind (protocolRecords_spec (by omega)
    ⟨fun _ h => (by cases h), fun _ h => (by cases h)⟩) fun v hv => ?_
  cases hp : v.toProtocol with
  | none => simp
  | some p =>
    unfold ProtocolVars.toProtocol at hp
    split at hp
    · cases hp
      exact Logged.post_pure.mpr ⟨by simp only; omega, hv.request_lt, hv.response_lt⟩
    · cases hp

/-! ### The bundle -/

theorem importAll_spec {α : Type} {item : ℕ → Loading (α × ℕ)} {P : α → Prop}
    (hitem : ∀ i, i + (sectionLength data i + 4) ≤ data.length →
      Loads data (item i) fun r => r.2 = i + (sectionLength data i + 4) ∧ P r.1)
    (hs : stream + length ≤ data.length) (ht : Tiles data n stream length) :
    Loads data (importAll item n stream) fun as => as.length = n ∧ ∀ a ∈ as, P a := by
  induction n generalizing stream length with
  | zero => exact Logged.post_pure.mpr ⟨rfl, by simp⟩
  | succ n ih =>
    obtain ⟨hle, ht⟩ := ht
    refine .bind (hitem stream (by omega)) fun (a, stream') ⟨hstream, ha⟩ => ?_
    simp only at hstream ha ⊢
    subst hstream
    refine .bind (ih (by omega) ht) fun as ⟨hlen, has⟩ => Logged.post_pure.mpr ?_
    exact ⟨by simp [hlen], by simpa [ha] using has⟩

/-- An array of the bundle whose elements have been counted. -/
def Counted (data : List UInt8) (a : ℕ × ℕ) : Prop :=
  ∃ length, a.2 + length ≤ data.length ∧ Tiles data a.1 a.2 length

theorem bundleArrays_spec {content : ℕ} (hs : 2 + (i + n) * 2 ≤ data.length) :
    Loads data (bundleArrays data n i content) fun as =>
      as.length = n ∧ ∀ a ∈ as, Counted data a := by
  induction n generalizing i content with
  | zero => exact Logged.post_pure.mpr ⟨rfl, by simp⟩
  | succ n ih =>
    refine .bind (.of_lift (toword_of_le (by rw [sizeofHeader, sizeofField]; omega))) fun value _ => ?_
    refine .ite (fun _ => by simp) fun _ => ?_
    refine .bind countArray_spec fun m ⟨hm, ht⟩ => ?_
    refine .bind (.of_lift (todword_of_le (by omega))) fun sz hsz => ?_
    refine .bind (ih (by omega)) fun as ⟨hlen, has⟩ => Logged.post_pure.mpr ⟨by simp [hlen], ?_⟩
    intro a ha
    rcases List.mem_cons.mp ha with rfl | ha
    · exact ⟨_, hm, ht⟩
    · exact has a ha

theorem Counted.getD {as : List (ℕ × ℕ)} (h : ∀ a ∈ as, Counted data a) (i : ℕ) :
    Counted data (as[i]?.getD (0, 0)) := by
  cases hi : as[i]? with
  | none => exact ⟨0, Nat.zero_le _, rfl⟩
  | some a => exact h a (List.mem_of_getElem? hi)

/-- A bundle for which everything that the loader relies on is so is loaded, or refused, within its
bounds. -/
theorem loadsSafely_of_fits (h : ∀ t ∈ (sprotoCreate data).log, t.Fits data) :
    LoadsSafely data := by
  suffices Loads data (sprotoCreate data) Schema.Valid from this h
  refine .bind (.of_lift (structField_spec (by omega))) fun fn ⟨hfn, _⟩ => ?_
  refine .ite (fun _ => by simp) fun _ => ?_
  refine .bind (bundleArrays_spec (by omega)) fun arrays ⟨_, hall⟩ => ?_
  obtain ⟨l₀, hs₀, ht₀⟩ := Counted.getD hall 0
  obtain ⟨l₁, hs₁, ht₁⟩ := Counted.getD hall 1
  refine .bind (importAll_spec (fun i hi => importType_spec hi) hs₀ ht₀) fun type ⟨hlen, ht⟩ => ?_
  refine .bind (importAll_spec (fun i hi => importProtocol_spec hi) hs₁ ht₁)
    fun proto ⟨_, hp⟩ => Logged.post_pure.mpr ?_
  constructor
  · exact fun t h => (ht t h).1
  · intro t h f hf
    rw [show type.length = _ from hlen]
    exact (ht t h).2 f hf
  · intro p h
    rw [show type.length = _ from hlen]
    exact (hp p h).1
  · intro p h
    rw [show type.length = _ from hlen]
    exact (hp p h).2

end

/-! ### Bundles -/

/-- A bundle with one type, which has no fields. -/
def namedBundle : List UInt8 :=
  [1, 0, 0, 0, 13, 0, 0, 0, 9, 0, 0, 0, 1, 0, 0, 0, 1, 0, 0, 0, 65]

theorem namedBundle_loadsSafely : LoadsSafely namedBundle :=
  loadsSafely_of_fits (by decide +kernel)

/-- The only element of the array claims the length `2 ^ 32 - 4`: `count_array` does not end. -/
theorem wrapping_element_endless :
    ¬LoadsSafely [1, 0, 0, 0, 4, 0, 0, 0, 0xfc, 0xff, 0xff, 0xff] := by
  have h : (sprotoCreate [1, 0, 0, 0, 4, 0, 0, 0, 0xfc, 0xff, 0xff, 0xff]).outcome =
      .error (.raised .endless) := by
    decide +kernel
  rw [LoadsSafely, h]
  simp

end Mtask.Sproto
