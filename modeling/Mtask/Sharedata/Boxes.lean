import Mathlib.Data.List.Basic
import Mtask.Sharedata.Service

/-!
# The boxes of the clients

A box that is reached from a proxy is there, and so is the box of its update. The garbage collection
and the finalizers keep this, as they only come to what is unreachable.
-/

namespace Mtask.Sharedata.Service

open List

/-! ### Lists of which some elements are gone -/

theorem getElem?_of_getD {α : Type*} {l : List (Option α)} {i : ℕ} {a : α}
    (h : l.getD i none = some a) : l[i]? = some (some a) := by
  rw [getD_eq_getElem?_getD] at h
  cases hat : l[i]? with
  | none =>
    rw [hat] at h
    cases h
  | some a' =>
    rw [hat] at h
    exact congrArg some h

theorem getD_append_none {α : Type*} {l l' : List (Option α)} {i : ℕ} {a : α}
    (h : l.getD i none = some a) : (l ++ l').getD i none = some a := by
  have hat := getElem?_of_getD h
  have hlt := (List.getElem?_eq_some_iff.1 hat).1
  rw [getD_eq_getElem?_getD, getElem?_append_left hlt, hat]
  rfl

theorem getD_concat {α : Type*} {l : List (Option α)} {i : ℕ} {a a' : α}
    (h : (l ++ [some a']).getD i none = some a) :
    l.getD i none = some a ∨ i = l.length ∧ a = a' := by
  have hat := getElem?_of_getD h
  rcases Nat.lt_trichotomy i l.length with hlt | rfl | hgt
  · rw [getElem?_append_left hlt] at hat
    rw [getD_eq_getElem?_getD, hat]
    exact .inl rfl
  · rw [getElem?_concat_length] at hat
    cases hat
    exact .inr ⟨rfl, rfl⟩
  · rw [getElem?_eq_none (by rw [length_append, length_singleton]; omega)] at hat
    cases hat

theorem getD_set {α : Type*} {l : List (Option α)} {i j : ℕ} {x : Option α} {a : α}
    (h : (l.set i x).getD j none = some a) :
    j = i ∧ x = some a ∨ j ≠ i ∧ l.getD j none = some a := by
  by_cases hij : i = j
  · subst hij
    have hat := getElem?_of_getD h
    have hlt := (List.getElem?_eq_some_iff.1 hat).1
    rw [length_set] at hlt
    rw [getElem?_set_self hlt] at hat
    exact .inl ⟨rfl, Option.some.inj hat⟩
  · rw [getD_eq_getElem?_getD, getElem?_set_ne hij, ← getD_eq_getElem?_getD] at h
    exact .inr ⟨Ne.symm hij, h⟩

theorem getD_set_self {α : Type*} {l : List (Option α)} {i : ℕ} {a : α} (x : Option α)
    (h : l.getD i none = some a) : (l.set i x).getD i none = x := by
  have hlt := (List.getElem?_eq_some_iff.1 (getElem?_of_getD h)).1
  rw [getD_eq_getElem?_getD, getElem?_set_self hlt]
  rfl

theorem getD_set_ne {α : Type*} {l : List (Option α)} {i j : ℕ} (x : Option α) (h : i ≠ j) :
    (l.set i x).getD j none = l.getD j none := by
  rw [getD_eq_getElem?_getD, getElem?_set_ne h, ← getD_eq_getElem?_getD]

theorem getD_mapIdx {α β : Type*} {l : List (Option α)} {f : ℕ → α → β} {i : ℕ} :
    (l.mapIdx fun i a => a.map (f i)).getD i none = (l.getD i none).map (f i) := by
  rw [getD_eq_getElem?_getD, getD_eq_getElem?_getD, getElem?_mapIdx]
  cases l[i]? <;> rfl

/-- The objects of boxes that are changed one by one. -/
theorem filterMap_mapIdx {f : ℕ → Box → Box} (hf : ∀ b box, (f b box).root = box.root)
    (boxes : List (Option Box)) :
    (boxes.mapIdx fun b box => box.map (f b)).filterMap (Option.map Box.root) =
      boxes.filterMap (Option.map Box.root) := by
  have hmap : (boxes.mapIdx fun b box => box.map (f b)).map (Option.map Box.root) =
      boxes.map (Option.map Box.root) := by
    refine ext_getElem? fun b => ?_
    rw [getElem?_map, getElem?_map, getElem?_mapIdx]
    cases boxes[b]? with
    | none => rfl
    | some box => cases box <;> simp [hf]
  have hflat (boxes : List (Option Box)) : boxes.filterMap (Option.map Box.root) =
      (boxes.map (Option.map Box.root)).filterMap id := by
    rw [filterMap_map]
    rfl
  rw [hflat, hmap, ← hflat]

theorem filterMap_set {α β : Type*} {f : α → Option β} {l : List α} {i : ℕ} {a x : α}
    (h : l[i]? = some a) (hx : f x = f a) : (l.set i x).filterMap f = l.filterMap f := by
  induction l generalizing i with
  | nil => rfl
  | cons b l ih =>
    cases i with
    | zero =>
      cases h
      rw [set_cons_zero, filterMap_cons, filterMap_cons, hx]
    | succ i =>
      rw [set_cons_succ, filterMap_cons, filterMap_cons, ih h]

theorem perm_filterMap_set {α β : Type*} {f : α → Option β} {l : List α} {i : ℕ} {a x : α} {r : β}
    (h : l[i]? = some a) (ha : f a = some r) (hx : f x = none) :
    (l.filterMap f).Perm (r :: (l.set i x).filterMap f) := by
  induction l generalizing i with
  | nil => cases h
  | cons b l ih =>
    cases i with
    | zero =>
      cases h
      rw [set_cons_zero, filterMap_cons_none hx, filterMap_cons_some ha]
    | succ i =>
      rw [set_cons_succ]
      cases hb : f b with
      | none =>
        rw [filterMap_cons_none hb, filterMap_cons_none hb]
        exact ih h
      | some r' =>
        rw [filterMap_cons_some hb, filterMap_cons_some hb]
        exact ((ih h).cons r').trans (.swap r r' _)

/-! ### Links -/

/-- What the proxies and the boxes that they reach refer to is there. -/
structure Linked (boxes : List (Option Box)) (proxies : List (Option Proxy)) : Prop where
  proxy : ∀ x proxy, proxies.getD x none = some proxy →
    ∃ box, boxes.getD proxy.gcobj none = some box ∧ box.condemned = false
  update : ∀ b box n c, boxes.getD b none = some box → box.condemned = false →
    box.update = some (n, c) →
    ∃ box', boxes.getD c none = some box' ∧ box'.condemned = false ∧ box'.root = n

namespace Linked

variable {boxes : List (Option Box)} {proxies : List (Option Proxy)}

section

variable (h : Linked boxes proxies)
include h

theorem box (p : Pointer) : Linked (boxes ++ [some ⟨p, none, false⟩]) proxies := by
  refine ⟨fun x proxy hx => ?_, fun b box n c hb hcond hupdate => ?_⟩
  · obtain ⟨box, hbox, hcond⟩ := h.proxy x proxy hx
    exact ⟨box, getD_append_none hbox, hcond⟩
  · rcases getD_concat hb with hb | ⟨-, rfl⟩
    · obtain ⟨box', hbox', hlive⟩ := h.update b box n c hb hcond hupdate
      exact ⟨box', getD_append_none hbox', hlive⟩
    · cases hupdate

theorem newProxy (proxy : Proxy)
    (hbox : ∃ box, boxes.getD proxy.gcobj none = some box ∧ box.condemned = false) :
    Linked boxes (proxies ++ [some proxy]) := by
  refine ⟨fun x proxy' hx => ?_, h.update⟩
  rcases getD_concat hx with hx | ⟨-, rfl⟩
  · exact h.proxy x proxy' hx
  · exact hbox

theorem lupdate {b c : ℕ} {box box' : Box} {n : Pointer} (hb : boxes.getD b none = some box)
    (hc : boxes.getD c none = some box') (hlive : box'.condemned = false) (hroot : box'.root = n)
    (hne : b ≠ c) : Linked (boxes.set b (some { box with update := some (n, c) })) proxies := by
  -- every box is still there, with the same object
  have hkept {d : ℕ} {old : Box} (hd : boxes.getD d none = some old) :
      ∃ new, (boxes.set b (some { box with update := some (n, c) })).getD d none = some new ∧
        new.condemned = old.condemned ∧ new.root = old.root := by
    by_cases hbd : b = d
    · subst hbd
      rw [hb] at hd
      cases hd
      exact ⟨_, getD_set_self _ hb, rfl, rfl⟩
    · exact ⟨old, by rw [getD_set_ne _ hbd, hd], rfl, rfl⟩
  refine ⟨fun x proxy hx => ?_, fun d old n' c' hd hcond hupdate => ?_⟩
  · obtain ⟨old, hold, hcond⟩ := h.proxy x proxy hx
    obtain ⟨new, hnew, hsame, -⟩ := hkept hold
    exact ⟨new, hnew, by rw [hsame, hcond]⟩
  · rcases getD_set hd with ⟨rfl, heq⟩ | ⟨-, hd⟩
    · cases heq
      cases hupdate
      exact ⟨box', by rw [getD_set_ne _ hne, hc], hlive, hroot⟩
    · obtain ⟨old', hold', hlive', hroot'⟩ := h.update d old n' c' hd hcond hupdate
      obtain ⟨new, hnew, hsame, hsame'⟩ := hkept hold'
      exact ⟨new, hnew, by rw [hsame, hlive'], by rw [hsame', hroot']⟩

theorem move {f : ℕ → Proxy → Proxy} (hf : ∀ x proxy, proxies.getD x none = some proxy →
      ∃ box, boxes.getD (f x proxy).gcobj none = some box ∧ box.condemned = false) :
    Linked boxes (proxies.mapIdx fun x proxy => proxy.map (f x)) := by
  refine ⟨fun x proxy hx => ?_, h.update⟩
  rw [getD_mapIdx] at hx
  obtain ⟨old, hold, rfl⟩ := Option.map_eq_some_iff.1 hx
  exact hf x old hold

theorem drop (x : ℕ) : Linked boxes (proxies.set x none) := by
  refine ⟨fun y proxy hy => ?_, h.update⟩
  rcases getD_set hy with ⟨-, heq⟩ | ⟨-, hy⟩
  · cases heq
  · exact h.proxy y proxy hy

theorem releaseobj {b : ℕ} {box : Box} (hb : boxes.getD b none = some box)
    (hcond : box.condemned = true) : Linked (boxes.set b none) proxies := by
  have hkept {c : ℕ} {box' : Box} (hc : boxes.getD c none = some box')
      (hlive : box'.condemned = false) : (boxes.set b none).getD c none = some box' := by
    rw [getD_set_ne, hc]
    rintro rfl
    rw [hb] at hc
    cases hc
    rw [hcond] at hlive
    cases hlive
  refine ⟨fun x proxy hx => ?_, fun c box' n d hc hlive hupdate => ?_⟩
  · obtain ⟨box', hbox', hlive⟩ := h.proxy x proxy hx
    exact ⟨box', hkept hbox' hlive, hlive⟩
  · rcases getD_set hc with ⟨-, heq⟩ | ⟨-, hc⟩
    · cases heq
    · obtain ⟨box'', hbox'', hlive', hroot⟩ := h.update c box' n d hc hlive hupdate
      exact ⟨box'', hkept hbox'' hlive', hlive', hroot⟩

theorem condemn {garbage : List ℕ}
    (hproxies : ∀ x proxy, proxies.getD x none = some proxy → proxy.gcobj ∉ garbage)
    (hboxes : ∀ b box n c, boxes.getD b none = some box → box.condemned = false →
      box.update = some (n, c) → b ∉ garbage → c ∉ garbage) :
    Linked (boxes.mapIdx fun b box => box.map (Box.mark garbage b)) proxies := by
  have hkept {c : ℕ} {box : Box} (hc : boxes.getD c none = some box) (hnot : c ∉ garbage) :
      (boxes.mapIdx fun b box => box.map (Box.mark garbage b)).getD c none = some box := by
    rw [getD_mapIdx, hc, Option.map_some, Box.mark, if_neg hnot]
  refine ⟨fun x proxy hx => ?_, fun b box n c hb hlive hupdate => ?_⟩
  · obtain ⟨box, hbox, hlive⟩ := h.proxy x proxy hx
    exact ⟨box, hkept hbox (hproxies x proxy hx), hlive⟩
  · rw [getD_mapIdx] at hb
    obtain ⟨old, hold, rfl⟩ := Option.map_eq_some_iff.1 hb
    unfold Box.mark at hlive hupdate
    by_cases hb : b ∈ garbage
    · rw [if_pos hb] at hlive
      cases hlive
    · rw [if_neg hb] at hlive hupdate
      obtain ⟨box', hbox', hlive', hroot⟩ := h.update b old n c hold hlive hupdate
      exact ⟨box', hkept hbox' (hboxes b old n c hold hlive hupdate hb), hlive', hroot⟩

end

end Linked

end Mtask.Sharedata.Service
