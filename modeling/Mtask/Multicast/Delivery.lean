import Mathlib.Data.List.Count
import Mtask.Lib.Transition
import Mtask.Multicast.Groups

/-!
# The publications of a channel

A publication goes to the groups of all nodes in `channel_remote` once. A service that has an answer
to `SUB` is in one of these groups, so that it gets the publication once, unless it unsubscribes
before.
-/

namespace Mtask.Multicast

open Transition List
open Function (update update_of_ne update_self)

variable {owner m p : ℕ} {w w' w'' : World} {node : Node} {s : Service}

/-- How often the service has got the publication, or it is on its way to the service. -/
def World.total (w : World) (p : ℕ) (s : Service) : ℕ :=
  w.redirected.count (p, s) + w.sending.count (p, s.node) + (w.nodes s.node).forwarded.count p

structure Published (owner : ℕ) (w : World) : Prop where
  notOwner : ∀ p, (p, owner) ∉ w.sending
  fresh : ∀ p s, w.published ≤ p → w.total p s = 0
  once : ∀ p s, w.total p s ≤ 1
  owed : ∀ p s, (p, s) ∈ w.owed → s ∈ w.acked ∧ w.total p s = 1
  dead : (w.nodes owner).channel = none → w.owed = []

/-! ### What does not matter for the publications -/

structure Framed (owner : ℕ) (w w' : World) : Prop where
  sending : w'.sending = w.sending
  redirected : w'.redirected = w.redirected
  published : w'.published = w.published
  forwarded : ∀ m, (w'.nodes m).forwarded = (w.nodes m).forwarded
  owed : ∀ p s, (p, s) ∈ w'.owed → (p, s) ∈ w.owed ∧ (s ∈ w.acked → s ∈ w'.acked)
  dead : (w'.nodes owner).channel = none → (w.nodes owner).channel = none ∨ w'.owed = []

namespace Framed

theorem refl (w : World) : Framed owner w w :=
  ⟨rfl, rfl, rfl, fun _ => rfl, fun _ _ h => ⟨h, id⟩, .inl⟩

theorem trans (h : Framed owner w w') (h' : Framed owner w' w'') : Framed owner w w'' := by
  refine ⟨h'.sending.trans h.sending, h'.redirected.trans h.redirected,
    h'.published.trans h.published, fun m => (h'.forwarded m).trans (h.forwarded m),
    fun p s hp => ?_, fun hdead => ?_⟩
  · obtain ⟨hp', hacked'⟩ := h'.owed p s hp
    obtain ⟨hp, hacked⟩ := h.owed p s hp'
    exact ⟨hp, hacked' ∘ hacked⟩
  · rcases h'.dead hdead with hdead | hnone
    · rcases h.dead hdead with hdead | hnone
      · exact .inl hdead
      · refine .inr (eq_nil_iff_forall_not_mem.2 fun ⟨p, s⟩ hp => ?_)
        have hp' := (h'.owed p s hp).1
        rw [hnone] at hp'
        cases hp'
    · exact .inr hnone

theorem setNode (hforwarded : node.forwarded = (w.nodes m).forwarded)
    (hchannel : m = owner → node.channel = none → (w.nodes m).channel = none) :
    Framed owner w (w.setNode m node) := by
  refine ⟨rfl, rfl, rfl, fun k => ?_, fun _ _ h => ⟨h, id⟩, fun hdead => .inl ?_⟩
  · unfold World.setNode
    by_cases hk : k = m
    · subst hk
      dsimp only
      rw [update_self, hforwarded]
    · dsimp only
      rw [update_of_ne hk]
  · unfold World.setNode at hdead
    by_cases hm : owner = m
    · subst hm
      dsimp only at hdead
      rw [update_self] at hdead
      exact hchannel rfl hdead
    · dsimp only at hdead
      rwa [update_of_ne hm] at hdead

theorem subscribe (w : World) (s : Service) : Framed owner w (w.subscribe s) := by
  have hacked : Framed owner w { w with acked := s :: w.acked } :=
    ⟨rfl, rfl, rfl, fun _ => rfl, fun _ _ h => ⟨h, mem_cons_of_mem _⟩, .inl⟩
  unfold World.subscribe
  dsimp only
  split
  · split_ifs
    · exact hacked
    · exact hacked.trans (.setNode rfl nofun)
  · exact hacked

theorem create (w : World) (m : ℕ) : Framed owner w (w.create m) := by
  unfold World.create
  split
  · exact .setNode rfl nofun
  · exact .refl w

theorem sub (w : World) (s : Service) : Framed owner w (sub owner w s) := by
  unfold Multicast.sub
  dsimp only
  split_ifs
  · exact .setNode rfl fun _ => id
  · exact .subscribe w s

theorem usub (w : World) (s : Service) : Framed owner w (usub owner w s) := by
  have hleft : Framed owner w { w with
      acked := w.acked.filter (· ≠ s)
      owed := w.owed.filter (·.2 ≠ s) } := by
    refine ⟨rfl, rfl, rfl, fun _ => rfl, fun p t hp => ?_, .inl⟩
    obtain ⟨hp, ht⟩ := mem_filter.1 hp
    exact ⟨hp, fun hacked => mem_filter.2 ⟨hacked, ht⟩⟩
  unfold Multicast.usub
  dsimp only
  split
  · exact hleft
  · split_ifs with hmem hlast
    · exact hleft.trans (.setNode rfl fun heq => absurd heq hlast.2)
    · exact hleft.trans (.setNode rfl nofun)
    · exact hleft

theorem delete (w : World) : Framed owner w (delete owner w) := by
  unfold Multicast.delete
  refine ⟨rfl, rfl, rfl, fun m => ?_, fun _ _ h => (nomatch h), fun _ => .inr rfl⟩
  by_cases hm : m = owner
  · subst hm
    change (update w.nodes m { w.nodes m with channel := none } m).forwarded = _
    rw [update_self]
  · exact congrArg Node.forwarded (update_of_ne hm _ _)

theorem del (w : World) (m : ℕ) : Framed owner w (del owner w m) := by
  unfold Multicast.del
  split_ifs
  · exact .delete w
  · exact .setNode rfl fun _ => id

theorem request {msg : ToOwner} (hs : request owner w m msg = .ok w') : Framed owner w w' := by
  unfold Multicast.request at hs
  cases msg with
  | del =>
    cases hs
    exact .delete w
  | usubr =>
    cases hs
    exact ⟨rfl, rfl, rfl, fun _ => rfl, fun _ _ h => ⟨h, id⟩, .inl⟩
  | subr s =>
    dsimp only at hs
    have hnode (b : Bool) : Framed owner w (w.setNode m { w.nodes m with
        fromOwner := (w.nodes m).fromOwner ++ [.result s b] }) := .setNode rfl fun _ => id
    split at hs
    · cases hs
      exact hnode true
    · split_ifs at hs
      · cases hs
        exact hnode false
      · cases hs
        exact ⟨rfl, rfl, rfl, (hnode false).forwarded, fun _ _ h => ⟨h, id⟩, (hnode false).dead⟩

theorem reply (hm : m ≠ owner) (w : World) (msg : FromOwner) : Framed owner w (reply w m msg) := by
  unfold Multicast.reply
  cases msg with
  | delr => exact .setNode rfl fun heq => absurd heq hm
  | result s b =>
    cases b with
    | true => exact ⟨rfl, rfl, rfl, fun _ => rfl, fun _ _ h => ⟨h, mem_cons_of_mem _⟩, .inl⟩
    | false => exact .trans (.create w m) (.subscribe _ s)

end Framed

namespace Published

variable (h : Published owner w)

include h

theorem framed (hframe : Framed owner w w') : Published owner w' := by
  have htotal (p : ℕ) (s : Service) : w'.total p s = w.total p s := by
    unfold World.total
    rw [hframe.redirected, hframe.sending, hframe.forwarded]
  refine ⟨fun p => ?_, fun p s hp => ?_, fun p s => ?_, fun p s hp => ?_, fun hdead => ?_⟩
  · rw [hframe.sending]
    exact h.notOwner p
  · rw [htotal]
    rw [hframe.published] at hp
    exact h.fresh p s hp
  · rw [htotal]
    exact h.once p s
  · rw [htotal]
    obtain ⟨hp, hacked⟩ := hframe.owed p s hp
    obtain ⟨hs, hone⟩ := h.owed p s hp
    exact ⟨hacked hs, hone⟩
  · rcases hframe.dead hdead with hdead | hnone
    · refine eq_nil_iff_forall_not_mem.2 fun ⟨p, s⟩ hp => ?_
      have hp' := (hframe.owed p s hp).1
      rw [h.dead hdead] at hp'
      cases hp'
    · exact hnone

omit h in
theorem count_pair {α : Type} [DecidableEq α] (l : List α) (p p' : ℕ) (a : α) :
    (l.map fun a => (p, a)).count (p', a) = if p' = p then l.count a else 0 := by
  split_ifs with hp
  · subst hp
    exact count_map_of_injective l (fun a => (p', a)) (fun _ _ h => (Prod.ext_iff.1 h).2) a
  · refine count_eq_zero.2 fun hmem => ?_
    obtain ⟨a', -, heq⟩ := mem_map.1 hmem
    exact hp (congrArg Prod.fst heq).symm

theorem alive {p : ℕ} {s : Service} (hp : (p, s) ∈ w.owed) : (w.nodes owner).channel ≠ none := by
  intro hnone
  rw [h.dead hnone] at hp
  cases hp

variable (hgroups : Grouped owner w)

include hgroups

omit h in
/-- A service with an answer gets a publication from its node, which the owner knows. -/
theorem one (halive : (w.nodes owner).channel ≠ none) {g : Group}
    (hg : (w.nodes owner).channel = some g) (hs : s ∈ w.acked) :
    g.members.count s + (w.remote.getD []).count s.node = 1 := by
  obtain ⟨g', hg', hmem⟩ := (hgroups.alive halive).acked s hs
  have hvalid := hgroups.valid owner
  by_cases howner : s.node = owner
  · rw [howner, hg] at hg'
    cases hg'
    rw [count_eq_one_of_mem (hvalid.nodup g hg) hmem, howner,
      count_eq_zero.2 hgroups.notOwner]
  · have hlinked := (hgroups.alive halive).linked s.node howner
    have hin := (hlinked.joined (.inl (by rw [hg']; nofun))).2
    rw [count_eq_one_of_mem hgroups.nodup hin,
      count_eq_zero.2 fun hmem => howner (hvalid.members g hg s hmem)]

theorem publish : Published owner (publish owner w) := by
  unfold Multicast.publish
  cases hg : (w.nodes owner).channel with
  | none => exact ⟨h.notOwner, fun p s hp => h.fresh p s (Nat.le_of_succ_le hp), h.once, h.owed,
      h.dead⟩
  | some g =>
    have hvalid := hgroups.valid owner
    have hsome : (w.nodes owner).channel ≠ none := by rw [hg]; nofun
    have htotal (p : ℕ) (s : Service) : World.total { w with
        published := w.published + 1
        redirected := w.redirected ++ g.members.map fun s => (w.published, s)
        sending := w.sending ++ (w.remote.getD []).map fun m => (w.published, m)
        owed := w.owed ++ w.acked.map fun s => (w.published, s) } p s = w.total p s +
          if p = w.published then g.members.count s + (w.remote.getD []).count s.node else 0 := by
      unfold World.total
      dsimp only
      rw [count_append, count_append, count_pair, count_pair]
      split_ifs <;> omega
    dsimp only
    refine ⟨fun p hp => ?_, fun p s hp => ?_, fun p s => ?_, fun p s hp => ?_,
      fun hnone => absurd hnone hsome⟩
    · rcases mem_append.1 hp with hp | hp
      · exact h.notOwner p hp
      · obtain ⟨m, hm, heq⟩ := mem_map.1 hp
        cases heq
        exact hgroups.notOwner hm
    · rw [htotal, h.fresh p s (Nat.le_of_succ_le hp), if_neg (Nat.ne_of_gt hp)]
    · rw [htotal]
      split_ifs with hp
      · have hle := nodup_iff_count_le_one.1 (hvalid.nodup g hg) s
        have hle' := nodup_iff_count_le_one.1 hgroups.nodup s.node
        have hfresh := h.fresh p s (Nat.le_of_eq hp.symm)
        by_cases howner : s.node = owner
        · have hnot := hgroups.notOwner
          rw [← howner] at hnot
          rw [count_eq_zero.2 hnot]
          omega
        · rw [count_eq_zero.2 fun hmem => howner (hvalid.members g hg s hmem)]
          omega
      · exact h.once p s
    · rw [htotal]
      rcases mem_append.1 hp with hp | hp
      · obtain ⟨hs, hone⟩ := h.owed p s hp
        refine ⟨hs, ?_⟩
        rw [if_neg, hone]
        rintro rfl
        have := h.fresh _ s (Nat.le_refl _)
        omega
      · obtain ⟨s', hs', heq⟩ := mem_map.1 hp
        cases heq
        refine ⟨hs', ?_⟩
        rw [if_pos rfl, h.fresh _ s (Nat.le_refl _), one hgroups hsome hg hs']

omit hgroups in
/-- The loop sends to a node. -/
theorem send (hmem : (p, m) ∈ w.sending) :
    Published owner ({ w with sending := w.sending.erase (p, m) }.setNode m
      { w.nodes m with forwarded := (w.nodes m).forwarded ++ [p] }) := by
  have hm : m ≠ owner := fun heq => h.notOwner p (heq ▸ hmem)
  have htotal (p' : ℕ) (s : Service) :
      World.total ({ w with sending := w.sending.erase (p, m) }.setNode m
        { w.nodes m with forwarded := (w.nodes m).forwarded ++ [p] }) p' s = w.total p' s := by
    have hpos := count_pos_iff.2 hmem
    unfold World.total World.setNode
    dsimp only
    by_cases hs : s.node = m
    · rw [hs, update_self]
      dsimp only
      rw [count_append]
      by_cases hp : p' = p
      · rw [hp, count_erase_self, count_singleton_self]
        omega
      · have hne : (p', m) ≠ (p, m) := fun heq => hp (Prod.ext_iff.1 heq).1
        rw [count_erase_of_ne hne,
          count_eq_zero.2 fun hmem => hp (mem_singleton.1 hmem)]
        rfl
    · have hne : (p', s.node) ≠ (p, m) := fun heq => hs (Prod.ext_iff.1 heq).2
      rw [update_of_ne hs, count_erase_of_ne hne]
  refine ⟨fun p' hp => h.notOwner p' (mem_of_mem_erase hp), fun p' s hp => ?_, fun p' s => ?_,
    fun p' s hp => ?_, fun hdead => h.dead ?_⟩
  · rw [htotal]
    exact h.fresh p' s hp
  · rw [htotal]
    exact h.once p' s
  · rw [htotal]
    exact h.owed p' s hp
  · exact (congrArg Node.channel (update_of_ne (Ne.symm hm) _ _)).symm.trans hdead

/-- The loop passes over a node that has been removed. -/
theorem skip (hmem : (p, m) ∈ w.sending) (hnot : m ∉ w.remote.getD []) :
    Published owner { w with sending := w.sending.erase (p, m) } := by
  have htotal (p' : ℕ) (s : Service) :
      World.total { w with sending := w.sending.erase (p, m) } p' s ≤ w.total p' s := by
    have hle := (@erase_sublist _ _ (p, m) w.sending).count_le (p', s.node)
    unfold World.total
    dsimp only
    omega
  refine ⟨fun p' hp => h.notOwner p' (mem_of_mem_erase hp), fun p' s hp => ?_, fun p' s => ?_,
    fun p' s hp => ?_, h.dead⟩
  · have := htotal p' s
    have := h.fresh p' s hp
    omega
  · exact Nat.le_trans (htotal p' s) (h.once p' s)
  · obtain ⟨hs, hone⟩ := h.owed p' s hp
    refine ⟨hs, ?_⟩
    have halive := h.alive hp
    have hne : (p', s.node) ≠ (p, m) := by
      intro heq
      obtain ⟨rfl, rfl⟩ := Prod.ext_iff.1 heq
      have howner : s.node ≠ owner := fun howner => h.notOwner p' (howner ▸ hmem)
      obtain ⟨g, hg, -⟩ := (hgroups.alive halive).acked s hs
      have hlinked := (hgroups.alive halive).linked s.node howner
      exact hnot (hlinked.joined (.inl (by rw [hg]; nofun))).2
    unfold World.total at hone ⊢
    dsimp only
    rwa [count_erase_of_ne hne]

theorem arrive (hmem : p ∈ (w.nodes m).forwarded) :
    Published owner (arrive (w.setNode m { w.nodes m with
      forwarded := (w.nodes m).forwarded.erase p }) m p) := by
  have hself : (w.setNode m { w.nodes m with
      forwarded := (w.nodes m).forwarded.erase p }).nodes m =
        { w.nodes m with forwarded := (w.nodes m).forwarded.erase p } := update_self _ _ _
  have hpos := count_pos_iff.2 hmem
  have hchannel : ((w.setNode m { w.nodes m with
      forwarded := (w.nodes m).forwarded.erase p }).nodes owner).channel =
        (w.nodes owner).channel := by
    by_cases hm : owner = m
    · subst hm
      rw [hself]
    · exact congrArg Node.channel (update_of_ne hm _ _)
  have hcount (p' : ℕ) (s : Service) : ((w.setNode m { w.nodes m with
      forwarded := (w.nodes m).forwarded.erase p }).nodes s.node).forwarded.count p' +
        (if p' = p ∧ s.node = m then 1 else 0) = (w.nodes s.node).forwarded.count p' := by
    by_cases hs : s.node = m
    · rw [hs, hself]
      by_cases hp : p' = p
      · subst hp
        rw [count_erase_self, if_pos ⟨rfl, rfl⟩]
        omega
      · rw [count_erase_of_ne hp, if_neg fun h => hp h.1, Nat.add_zero]
    · rw [if_neg fun h => hs h.2, Nat.add_zero]
      exact congrArg (fun node : Node => node.forwarded.count p') (update_of_ne hs _ _)
  unfold Multicast.arrive
  rw [hself]
  cases hg : (w.nodes m).channel with
  | none =>
    have htotal (p' : ℕ) (s : Service) : (w.setNode m { w.nodes m with
        forwarded := (w.nodes m).forwarded.erase p }).total p' s +
          (if p' = p ∧ s.node = m then 1 else 0) = w.total p' s := by
      have := hcount p' s
      unfold World.total
      dsimp only [World.setNode] at *
      omega
    dsimp only
    refine ⟨h.notOwner, fun p' s hp => ?_, fun p' s => ?_, fun p' s hp => ?_, fun hdead =>
      h.dead (hchannel.symm.trans hdead)⟩
    · exact Nat.eq_zero_of_le_zero (Nat.le_trans (Nat.le.intro (htotal p' s))
        (Nat.le_of_eq (h.fresh p' s hp)))
    · exact Nat.le_trans (Nat.le.intro (htotal p' s)) (h.once p' s)
    · obtain ⟨hs, hone⟩ := h.owed p' s hp
      obtain ⟨g, hg', -⟩ := (hgroups.alive (h.alive hp)).acked s hs
      have hne : ¬(p' = p ∧ s.node = m) := by
        rintro ⟨-, hnode⟩
        rw [hnode, hg] at hg'
        cases hg'
      have := htotal p' s
      rw [if_neg hne] at this
      exact ⟨hs, this.trans hone⟩
  | some g =>
    have hvalid := hgroups.valid m
    have hnode (s : Service) (hs : s ∈ g.members) : s.node = m := hvalid.members g hg s hs
    have htotal (p' : ℕ) (s : Service) : World.total { w.setNode m { w.nodes m with
        forwarded := (w.nodes m).forwarded.erase p } with
          redirected := w.redirected ++ g.members.map fun s => (p, s) } p' s +
            (if p' = p ∧ s.node = m then 1 else 0) =
        w.total p' s + if p' = p then g.members.count s else 0 := by
      have := hcount p' s
      unfold World.total
      dsimp only [World.setNode] at *
      rw [count_append, count_pair]
      omega
    have hmembers (s : Service) : g.members.count s ≤ if s.node = m then 1 else 0 := by
      split_ifs with hs
      · exact nodup_iff_count_le_one.1 (hvalid.nodup g hg) s
      · exact Nat.le_of_eq (count_eq_zero.2 fun hmem => hs (hnode s hmem))
    have hle (p' : ℕ) (s : Service) : World.total { w.setNode m { w.nodes m with
        forwarded := (w.nodes m).forwarded.erase p } with
          redirected := w.redirected ++ g.members.map fun s => (p, s) } p' s ≤ w.total p' s := by
      have ht := htotal p' s
      have hm := hmembers s
      by_cases hp : p' = p
      · by_cases hs : s.node = m
        · rw [if_pos ⟨hp, hs⟩, if_pos hp] at ht
          rw [if_pos hs] at hm
          omega
        · rw [if_neg fun h => hs h.2, if_pos hp] at ht
          rw [if_neg hs] at hm
          omega
      · rw [if_neg fun h => hp h.1, if_neg hp] at ht
        omega
    dsimp only
    refine ⟨h.notOwner, fun p' s hp => ?_, fun p' s => ?_, fun p' s hp => ?_, fun hdead =>
      h.dead (hchannel.symm.trans hdead)⟩
    · exact Nat.le_zero.1 (h.fresh p' s hp ▸ hle p' s)
    · exact Nat.le_trans (hle p' s) (h.once p' s)
    · obtain ⟨hs, hone⟩ := h.owed p' s hp
      refine ⟨hs, ?_⟩
      have ht := htotal p' s
      by_cases heq : p' = p
      · by_cases hsm : s.node = m
        · obtain ⟨g', hg', hin⟩ := (hgroups.alive (h.alive hp)).acked s hs
          rw [hsm, hg] at hg'
          cases hg'
          rw [if_pos ⟨heq, hsm⟩, if_pos heq,
            count_eq_one_of_mem (hvalid.nodup g hg) hin] at ht
          exact (Nat.add_right_cancel ht).trans hone
        · have hm := hmembers s
          rw [if_neg hsm] at hm
          rw [if_neg fun h => hsm h.2, if_pos heq, Nat.le_zero.1 hm] at ht
          exact (Nat.add_right_cancel ht).trans hone
      · rw [if_neg fun h => heq h.1, if_neg heq] at ht
        exact (Nat.add_right_cancel ht).trans hone

theorem step {e : Event} (hs : step owner w e = .ok w') : Published owner w' := by
  unfold Multicast.step at hs
  cases e with
  | sub s =>
    cases hs
    exact h.framed (.sub w s)
  | usub s =>
    cases hs
    exact h.framed (.usub w s)
  | del m =>
    cases hs
    exact h.framed (.del w m)
  | pub m =>
    cases hs
    unfold pub
    split_ifs
    · exact h.publish hgroups
    · exact h.framed ⟨rfl, rfl, rfl, fun _ => rfl, fun _ _ h => ⟨h, id⟩, .inl⟩
  | lookup m i =>
    dsimp only at hs
    split at hs
    · cases hs
      exact h.framed (.setNode rfl fun _ => id)
    · cases hs
  | request m =>
    dsimp only at hs
    cases hmsg : (w.nodes m).toOwner with
    | nil =>
      rw [hmsg] at hs
      cases hs
    | cons msg rest =>
      rw [hmsg] at hs
      have hpop : Framed owner w (w.setNode m { w.nodes m with toOwner := rest }) :=
        .setNode rfl fun _ => id
      exact h.framed (hpop.trans (.request hs))
  | reply m =>
    dsimp only at hs
    cases hmsg : (w.nodes m).fromOwner with
    | nil =>
      rw [hmsg] at hs
      cases hs
    | cons msg rest =>
      rw [hmsg] at hs
      cases hs
      have hpop : Framed owner w (w.setNode m { w.nodes m with fromOwner := rest }) :=
        .setNode rfl fun _ => id
      exact h.framed (hpop.trans (.reply (hgroups.popReply hmsg).1 _ msg))
  | multicast =>
    dsimp only at hs
    split_ifs at hs
    cases hs
    have hless : Published owner { w with forwards := w.forwards - 1 } :=
      h.framed ⟨rfl, rfl, rfl, fun _ => rfl, fun _ _ h => ⟨h, id⟩, .inl⟩
    exact hless.publish hgroups
  | send p m =>
    dsimp only at hs
    split_ifs at hs with hmem
    cases hs
    exact h.send hmem
  | skip p m =>
    dsimp only at hs
    split_ifs at hs with hmem
    cases hs
    exact h.skip hgroups hmem.1 hmem.2
  | delr m =>
    dsimp only at hs
    split_ifs at hs with hmem
    cases hs
    have hfewer : Framed owner w { w with deleting := w.deleting.erase m } :=
      ⟨rfl, rfl, rfl, fun _ => rfl, fun _ _ h => ⟨h, id⟩, .inl⟩
    exact h.framed (hfewer.trans (.setNode rfl fun _ => id))
  | arrive m p =>
    dsimp only at hs
    split_ifs at hs with hmem
    cases hs
    exact h.arrive hgroups hmem

end Published

/-! ### Runs -/

theorem published_init (owner : ℕ) : Published owner (init owner) :=
  ⟨nofun, fun _ _ _ => rfl, fun _ _ => Nat.zero_le 1, nofun, fun _ => rfl⟩

/-- The promise of a channel. -/
structure Delivers (owner : ℕ) (w : World) : Prop where
  /-- The owner knows the node of a service with an answer, until the channel is deleted. -/
  joined : (w.nodes owner).channel ≠ none → ∀ s ∈ w.acked, s.node ≠ owner →
    s.node ∈ w.remote.getD []
  /-- A service gets a publication once at most. -/
  once : ∀ p s, w.redirected.count (p, s) ≤ 1
  /-- What a service is to get it has got, or it is on the way, and once. -/
  owed : ∀ p s, (p, s) ∈ w.owed → w.redirected.count (p, s) + w.sending.count (p, s.node) +
    (w.nodes s.node).forwarded.count p = 1

/-- If the group of a node gets empty only while the node does not wait for a result, and no node is
added in the middle of a publication, the services get every publication from the answer on. -/
theorem delivers (h : Reaches (step owner) (Settled owner) (init owner) w) : Delivers owner w := by
  have hinv : Grouped owner w ∧ Published owner w := by
    have hstep : ∀ (u v : World) (e : Event), Grouped owner u ∧ Published owner u →
        Settled owner u e → step owner u e = .ok v → Grouped owner v ∧ Published owner v :=
      fun u v e hu hsettled hs => ⟨hu.1.step hsettled hs, hu.2.step hu.1 hs⟩
    exact h.invariant ⟨groups_init owner, published_init owner⟩ hstep
  obtain ⟨hgroups, hpublished⟩ := hinv
  refine ⟨fun halive s hs howner => ?_, fun p s => ?_, fun p s hp => (hpublished.owed p s hp).2⟩
  · obtain ⟨g, hg, -⟩ := (hgroups.alive halive).acked s hs
    exact (((hgroups.alive halive).linked s.node howner).joined (.inl (by rw [hg]; nofun))).2
  · have hle := hpublished.once p s
    unfold World.total at hle
    omega

/-- A service in another node subscribes, and gets a publication. -/
def oneSubscriber : List Event :=
  [.sub ⟨1, 0⟩, .lookup 1 0, .request 1, .reply 1, .pub 0, .send 0 1, .arrive 1 0]

theorem delivers_oneSubscriber : ∃ w, exec (step 0) (init 0) oneSubscriber = .ok w ∧
    w.redirected = [(0, ⟨1, 0⟩)] ∧ Delivers 0 w := by
  have hpermitted : Permitted (step 0) (Settled 0) (init 0) oneSubscriber :=
    .cons trivial rfl (.cons trivial rfl (.cons (.inl rfl) rfl (.cons trivial rfl
      (.cons trivial rfl (.cons trivial rfl (.cons trivial rfl trivial))))))
  exact ⟨_, rfl, rfl, delivers (hpermitted.reaches rfl)⟩

/-- Two services of a node subscribe; the first one has its answer and leaves before the second one
has got its result. -/
def crossing : List Event :=
  [.sub ⟨1, 0⟩, .sub ⟨1, 1⟩, .lookup 1 0, .lookup 1 0, .request 1, .request 1, .reply 1,
    .usub ⟨1, 0⟩, .reply 1, .request 1, .pub 0]

/-- The second service has its answer, but the owner does not know its node, and it does not get the
publication. -/
theorem subscriber_lost : ∃ w, exec (step 0) (init 0) crossing = .ok w ∧
    (w.nodes 0).channel ≠ none ∧ ⟨1, 1⟩ ∈ w.acked ∧ w.remote = some [] ∧
      (0, ⟨1, 1⟩) ∈ w.owed ∧ w.redirected = [] ∧ w.sending = [] ∧ (w.nodes 1).forwarded = [] :=
  ⟨_, rfl, nofun, List.mem_cons_self, rfl, List.mem_cons_self, rfl, rfl, rfl⟩

end Mtask.Multicast
