import Mathlib.Data.List.Nodup
import Mtask.Multicast.Channel

/-!
# The groups of a channel

A node has the channel while it is in `channel_remote` of the owner: the messages that it sends
leave it there. This holds if a node does not send `USUBR` while it waits for the result of `SUBR`.
-/

namespace Mtask.Multicast

open Function (update update_of_ne update_self)
open List

variable {owner m k : ℕ} {w w' : World} {node : Node} {nodes : ℕ → Node}
  {remote remote' : Option (List ℕ)} {deleting : List ℕ} {acked acked' : List Service} {s : Service}

/-- The group of a node, and the services of its messages. -/
structure Valid (m : ℕ) (node : Node) : Prop where
  length : ∀ g, node.channel = some g → g.n = g.members.length
  nodup : ∀ g, node.channel = some g → g.members.Nodup
  members : ∀ g, node.channel = some g → ∀ s ∈ g.members, s.node = m
  lookup : ∀ msg ∈ node.lookup, msg = .del ∨ ∃ s, msg = .subr s ∧ s.node = m
  toOwner : ∀ s, .subr s ∈ node.toOwner → s.node = m
  fromOwner : ∀ s b, .result s b ∈ node.fromOwner → s.node = m

/-- A node and the messages between it and the owner, while the owner has the channel. -/
structure Linked (joined : Prop) (node : Node) : Prop where
  order : node.toOwner.Pairwise fun a b => ∀ s, a = .subr s → b ≠ .usubr
  joined : (node.channel ≠ none ∨ ∃ s, .result s false ∈ node.fromOwner) →
    .usubr ∉ node.toOwner ∧ joined
  results : ∀ s, .result s true ∉ node.fromOwner
  delr : .delr ∉ node.fromOwner

/-- The service is in the group. -/
def Subscribed (node : Node) (s : Service) : Prop := ∃ g, node.channel = some g ∧ s ∈ g.members

/-- While the owner has the channel. -/
structure Alive (owner : ℕ) (nodes : ℕ → Node) (remote : Option (List ℕ)) (deleting : List ℕ)
    (acked : List Service) : Prop where
  linked : ∀ m ≠ owner, Linked (m ∈ remote.getD []) (nodes m)
  deleting : deleting = []
  acked : ∀ s ∈ acked, Subscribed (nodes s.node) s

structure Groups (owner : ℕ) (nodes : ℕ → Node) (remote : Option (List ℕ)) (deleting : List ℕ)
    (acked : List Service) : Prop where
  valid : ∀ m, Valid m (nodes m)
  lookup : (nodes owner).lookup = []
  toOwner : (nodes owner).toOwner = []
  fromOwner : (nodes owner).fromOwner = []
  nodup : (remote.getD []).Nodup
  notOwner : owner ∉ remote.getD []
  notDeleting : owner ∉ deleting
  alive : (nodes owner).channel ≠ none → Alive owner nodes remote deleting acked

/-- When a group gets empty, its node does not wait for a result. -/
def Settled (owner : ℕ) (w : World) : Event → Prop
  | .usub source => source.node ≠ owner → (w.nodes source.node).channel = some ⟨[source], 1⟩ →
    ∀ s, .subr s ∉ (w.nodes source.node).toOwner ∧
      ∀ b, .result s b ∉ (w.nodes source.node).fromOwner
  | .request m => w.sending = [] ∨ m ∈ w.remote.getD [] ∨ (w.nodes owner).channel = none ∨
    ∀ s, (w.nodes m).toOwner.head? ≠ some (.subr s)
  | _ => True

theorem groups_init (owner : ℕ) : Groups owner (init owner).nodes none [] [] := by
  have hnode (m : ℕ) : ((init owner).nodes m).channel = if m = owner then some ⟨[], 0⟩ else none :=
    rfl
  have hgroup (m : ℕ) (g : Group) (h : ((init owner).nodes m).channel = some g) : g = ⟨[], 0⟩ := by
    rw [hnode] at h
    split_ifs at h
    exact (Option.some.inj h).symm
  refine ⟨fun m => ⟨fun g h => ?_, fun g h => ?_, fun g h => ?_, nofun, nofun, nofun⟩,
    rfl, rfl, rfl, nodup_nil, not_mem_nil, not_mem_nil,
    fun _ => ⟨fun m hm => ⟨.nil, fun h => ?_, nofun, nofun⟩, rfl, nofun⟩⟩
  · rw [hgroup m g h]
    rfl
  · rw [hgroup m g h]
    exact nodup_nil
  · rw [hgroup m g h]
    exact nofun
  · rw [hnode, if_neg hm] at h
    rcases h with h | ⟨s, h⟩
    · exact absurd rfl h
    · cases h

namespace Groups

variable (h : Groups owner nodes remote deleting acked)

include h

theorem answered
    (hacked : (nodes owner).channel ≠ none → ∀ s ∈ acked', Subscribed (nodes s.node) s) :
    Groups owner nodes remote deleting acked' :=
  ⟨h.valid, h.lookup, h.toOwner, h.fromOwner, h.nodup, h.notOwner, h.notDeleting, fun halive =>
    ⟨(h.alive halive).linked, (h.alive halive).deleting, hacked halive⟩⟩

theorem change (hm : m ≠ owner) (hvalid : Valid m node) (hnodup : (remote'.getD []).Nodup)
    (hremote : ∀ k ≠ m, k ∈ remote'.getD [] ↔ k ∈ remote.getD [])
    (hlinked : (nodes owner).channel ≠ none → Linked (m ∈ remote'.getD []) node)
    (hacked : (nodes owner).channel ≠ none → ∀ s ∈ acked',
      s.node ≠ m ∧ s ∈ acked ∨ s.node = m ∧ Subscribed node s) :
    Groups owner (update nodes m node) remote' deleting acked' := by
  have howner : update nodes m node owner = nodes owner :=
    update_of_ne (Ne.symm hm) _ _
  refine ⟨fun k => ?_, howner ▸ h.lookup, howner ▸ h.toOwner, howner ▸ h.fromOwner, hnodup, ?_,
    h.notDeleting, fun halive => ?_⟩
  · by_cases hk : k = m
    · subst hk
      rwa [update_self]
    · rw [update_of_ne hk]
      exact h.valid k
  · rw [hremote owner (Ne.symm hm)]
    exact h.notOwner
  · rw [howner] at halive
    obtain ⟨hlinks, hdeleting, hsubscribed⟩ := h.alive halive
    refine ⟨fun k hk => ?_, hdeleting, fun s hs => ?_⟩
    · by_cases hkm : k = m
      · subst hkm
        rw [update_self]
        exact hlinked halive
      · rw [update_of_ne hkm, hremote k hkm]
        exact hlinks k hk
    · rcases hacked halive s hs with ⟨hs, hold⟩ | ⟨rfl, hnew⟩
      · rw [update_of_ne hs]
        exact hsubscribed s hold
      · rwa [update_self]

theorem keep (hm : m ≠ owner) (hchannel : node.channel = (nodes m).channel) (hvalid : Valid m node)
    (hnodup : (remote'.getD []).Nodup) (hremote : ∀ k ≠ m, k ∈ remote'.getD [] ↔ k ∈ remote.getD [])
    (hlinked : (nodes owner).channel ≠ none → Linked (m ∈ remote'.getD []) node) :
    Groups owner (update nodes m node) remote' deleting acked := by
  refine h.change hm hvalid hnodup hremote hlinked fun halive t ht => ?_
  by_cases hnode : t.node = m
  · obtain ⟨g, hg, hmem⟩ := (h.alive halive).acked t ht
    exact .inr ⟨hnode, g, by rw [hchannel, ← hnode, hg], hmem⟩
  · exact .inl ⟨hnode, ht⟩

theorem change_owner (hvalid : Valid owner node) (hlookup : node.lookup = (nodes owner).lookup)
    (htoOwner : node.toOwner = (nodes owner).toOwner)
    (hfromOwner : node.fromOwner = (nodes owner).fromOwner)
    (hkept : node.channel ≠ none → (nodes owner).channel ≠ none)
    (hacked : node.channel ≠ none → ∀ s ∈ acked',
      s.node ≠ owner ∧ s ∈ acked ∨ s.node = owner ∧ Subscribed node s) :
    Groups owner (update nodes owner node) remote deleting acked' := by
  have howner : update nodes owner node owner = node := update_self _ _ _
  refine ⟨fun k => ?_, by rw [howner, hlookup, h.lookup], by rw [howner, htoOwner, h.toOwner],
    by rw [howner, hfromOwner, h.fromOwner], h.nodup, h.notOwner, h.notDeleting, fun halive => ?_⟩
  · by_cases hk : k = owner
    · subst hk
      rwa [update_self]
    · rw [update_of_ne hk]
      exact h.valid k
  · rw [howner] at halive
    obtain ⟨hlinks, hdeleting, hsubscribed⟩ := h.alive (hkept halive)
    refine ⟨fun k hk => ?_, hdeleting, fun s hs => ?_⟩
    · rw [update_of_ne hk]
      exact hlinks k hk
    · rcases hacked halive s hs with ⟨hs, hold⟩ | ⟨hs, hnew⟩
      · rw [update_of_ne hs]
        exact hsubscribed s hold
      · rw [hs, update_self]
        exact hnew

end Groups

/-- The nodes of the world, `channel_remote` and the services with an answer. -/
abbrev Grouped (owner : ℕ) (w : World) : Prop := Groups owner w.nodes w.remote w.deleting w.acked

theorem Valid.withGroup (h : Valid m node) {g : Group} (hlength : g.n = g.members.length)
    (hnodup : g.members.Nodup) (hmembers : ∀ s ∈ g.members, s.node = m) :
    Valid m { node with channel := some g } := by
  refine ⟨fun g' hg' => ?_, fun g' hg' => ?_, fun g' hg' => ?_, h.lookup, h.toOwner, h.fromOwner⟩
  · cases hg'
    exact hlength
  · cases hg'
    exact hnodup
  · cases hg'
    exact hmembers

/-- Another group does not matter for the messages. -/
theorem Linked.withGroup {joined : Prop} (h : Linked joined node) (hchannel : node.channel ≠ none)
    (g : Group) : Linked joined { node with channel := some g } :=
  ⟨h.order, fun _ => h.joined (.inl hchannel), h.results, h.delr⟩

namespace Grouped

variable (h : Grouped owner w)

include h

theorem withGroup {g g' : Group} (hg : (w.nodes m).channel = some g)
    (hlength : g'.n = g'.members.length) (hnodup : g'.members.Nodup)
    (hmembers : ∀ s ∈ g'.members, s.node = m)
    (hacked : (w.nodes owner).channel ≠ none → ∀ s ∈ acked',
      s.node ≠ m ∧ s ∈ w.acked ∨ s.node = m ∧ s ∈ g'.members) :
    Groups owner (update w.nodes m { w.nodes m with channel := some g' }) w.remote
      w.deleting acked' := by
  have hvalid := (h.valid m).withGroup hlength hnodup hmembers
  have hsome : (w.nodes m).channel ≠ none := by rw [hg]; nofun
  have hsubscribed (halive : (w.nodes owner).channel ≠ none) (s : Service) (hs : s ∈ acked') :
      s.node ≠ m ∧ s ∈ w.acked ∨
        s.node = m ∧ Subscribed { w.nodes m with channel := some g' } s := by
    rcases hacked halive s hs with hother | ⟨hs, hmem⟩
    · exact .inl hother
    · exact .inr ⟨hs, g', rfl, hmem⟩
  by_cases hm : m = owner
  · subst hm
    exact h.change_owner hvalid rfl rfl rfl (fun _ => hsome) fun _ => hsubscribed hsome
  · exact h.change hm hvalid h.nodup (fun _ _ => Iff.rfl)
      (fun halive => ((h.alive halive).linked m hm).withGroup hsome g') hsubscribed

theorem subscribe (hsome : s.node ≠ owner → (w.nodes s.node).channel ≠ none) :
    Grouped owner (w.subscribe s) := by
  unfold World.subscribe
  dsimp only
  cases hchannel : (w.nodes s.node).channel with
  | none =>
    have howner : s.node = owner := by
      by_contra hne
      exact hsome hne hchannel
    rw [howner] at hchannel
    exact h.answered fun halive => absurd hchannel halive
  | some g =>
    have hvalid := h.valid s.node
    have hlength := hvalid.length g hchannel
    have hnodup := hvalid.nodup g hchannel
    have hmembers := hvalid.members g hchannel
    dsimp only
    by_cases hmem : s ∈ g.members
    · rw [if_pos hmem]
      refine h.answered fun halive t ht => ?_
      rcases mem_cons.1 ht with rfl | ht
      · exact ⟨g, hchannel, hmem⟩
      · exact (h.alive halive).acked t ht
    · rw [if_neg hmem]
      refine h.withGroup hchannel ?_ (nodup_cons.2 ⟨hmem, hnodup⟩) ?_ fun halive t ht => ?_
      · rw [length_cons, hlength]
        rfl
      · exact forall_mem_cons.2 ⟨rfl, hmembers⟩
      · rcases mem_cons.1 ht with rfl | ht
        · exact .inr ⟨rfl, mem_cons_self⟩
        · by_cases hnode : t.node = s.node
          · obtain ⟨g', hg', ht'⟩ := (h.alive halive).acked t ht
            rw [hnode, hchannel] at hg'
            cases hg'
            exact .inr ⟨hnode, mem_cons_of_mem _ ht'⟩
          · exact .inl ⟨hnode, ht⟩

theorem sub : Grouped owner (sub owner w s) := by
  unfold Multicast.sub
  dsimp only
  by_cases hask : s.node ≠ owner ∧ (w.nodes s.node).channel = none
  · rw [if_pos hask]
    obtain ⟨hne, hnone⟩ := hask
    have hvalid := h.valid s.node
    refine h.keep hne rfl ⟨hvalid.length, hvalid.nodup, hvalid.members, fun msg hmsg => ?_,
      hvalid.toOwner, hvalid.fromOwner⟩ h.nodup (fun _ _ => Iff.rfl) fun halive => ?_
    · rcases mem_append.1 hmsg with hmsg | hmsg
      · exact hvalid.lookup msg hmsg
      · exact .inr ⟨s, mem_singleton.1 hmsg, rfl⟩
    · obtain ⟨horder, hjoined, hresults, hdelr⟩ := (h.alive halive).linked s.node hne
      exact ⟨horder, hjoined, hresults, hdelr⟩
  · rw [if_neg hask]
    exact h.subscribe fun hne hnone => hask ⟨hne, hnone⟩

theorem usub (hsettled : Settled owner w (.usub s)) : Grouped owner (usub owner w s) := by
  have hfilter (t : Service) : t ∈ w.acked.filter (· ≠ s) ↔ t ∈ w.acked ∧ t ≠ s := by
    rw [mem_filter, decide_eq_true_eq]
  have hfewer : Groups owner w.nodes w.remote w.deleting (w.acked.filter (· ≠ s)) :=
    h.answered fun halive t ht => (h.alive halive).acked t ((hfilter t).1 ht).1
  unfold Multicast.usub
  dsimp only
  cases hchannel : (w.nodes s.node).channel with
  | none => exact hfewer
  | some g =>
    have hvalid := h.valid s.node
    have hlength := hvalid.length g hchannel
    have hnodup := hvalid.nodup g hchannel
    have hmembers := hvalid.members g hchannel
    dsimp only
    by_cases hmem : s ∈ g.members
    · rw [if_pos hmem]
      by_cases hlast : g.n - 1 = 0 ∧ s.node ≠ owner
      · rw [if_pos hlast]
        obtain ⟨hn, hne⟩ := hlast
        obtain ⟨t, ht⟩ := length_eq_one_iff.1 (by omega : g.members.length = 1)
        obtain rfl : s = t := by rwa [ht, mem_singleton] at hmem
        have hg : g = ⟨[s], 1⟩ := by
          obtain ⟨members, n⟩ := g
          obtain rfl : members = [s] := ht
          obtain rfl : n = 1 := by
            dsimp only at hn
            omega
          rfl
        have hquiet := hsettled hne (hg ▸ hchannel)
        refine h.change hne ⟨nofun, nofun, nofun, hvalid.lookup, fun t hmsg => ?_,
          hvalid.fromOwner⟩ h.nodup (fun _ _ => Iff.rfl) (fun halive => ?_)
          fun halive t hacked => ?_
        · rcases mem_append.1 hmsg with hmsg | hmsg
          · exact hvalid.toOwner t hmsg
          · cases mem_singleton.1 hmsg
        · obtain ⟨horder, -, hresults, hdelr⟩ := (h.alive halive).linked s.node hne
          refine ⟨pairwise_append.2 ⟨horder, pairwise_singleton _ _, ?_⟩,
            fun hjoined => ?_, hresults, hdelr⟩
          · rintro msg hmsg - - t rfl
            exact absurd hmsg (hquiet t).1
          · rcases hjoined with hsome | ⟨t, hresult⟩
            · exact absurd rfl hsome
            · exact absurd hresult ((hquiet t).2 false)
        · obtain ⟨hold, hts⟩ := (hfilter t).1 hacked
          refine .inl ⟨fun hnode => ?_, hold⟩
          obtain ⟨g', hg', hmem'⟩ := (h.alive halive).acked t hold
          rw [hnode, hchannel] at hg'
          cases hg'
          rw [ht, mem_singleton] at hmem'
          exact hts hmem'
      · rw [if_neg hlast]
        refine Grouped.withGroup (w := { w with acked := w.acked.filter (· ≠ s) })
          hfewer hchannel ?_ (hnodup.erase s)
          (fun t ht => hmembers t (mem_of_mem_erase ht)) fun halive t ht => ?_
        · rw [length_erase_of_mem hmem, hlength]
          have := length_pos_of_mem hmem
          dsimp only
          omega
        · obtain ⟨hold, hts⟩ := (hfilter t).1 ht
          by_cases hnode : t.node = s.node
          · obtain ⟨g', hg', ht'⟩ := (h.alive halive).acked t hold
            rw [hnode, hchannel] at hg'
            cases hg'
            exact .inr ⟨hnode, (mem_erase_of_ne hts).2 ht'⟩
          · exact .inl ⟨hnode, ht⟩
    · rw [if_neg hmem]
      exact hfewer

theorem delete : Grouped owner (delete owner w) := by
  unfold Multicast.delete
  have howner {node : Node} : update w.nodes owner node owner = node :=
    update_self _ _ _
  have hvalid := h.valid owner
  refine ⟨fun k => ?_, ?_, ?_, ?_, nodup_nil, not_mem_nil, fun hmem => ?_,
    fun halive => ?_⟩
  · dsimp only [World.setNode]
    by_cases hk : k = owner
    · subst hk
      rw [update_self]
      exact ⟨nofun, nofun, nofun, hvalid.lookup, hvalid.toOwner, hvalid.fromOwner⟩
    · rw [update_of_ne hk]
      exact h.valid k
  · dsimp only [World.setNode]
    rw [howner]
    exact h.lookup
  · dsimp only [World.setNode]
    rw [howner]
    exact h.toOwner
  · dsimp only [World.setNode]
    rw [howner]
    exact h.fromOwner
  · rcases mem_append.1 hmem with hmem | hmem
    · exact h.notDeleting hmem
    · exact h.notOwner hmem
  · dsimp only [World.setNode] at halive
    rw [howner] at halive
    exact absurd rfl halive

variable {msg : ToOwner}

theorem lookup {i : ℕ} (hmsg : (w.nodes m).lookup[i]? = some msg) :
    Grouped owner (w.setNode m { w.nodes m with
      lookup := (w.nodes m).lookup.eraseIdx i
      toOwner := (w.nodes m).toOwner ++ [msg] }) := by
  have hmem := mem_of_getElem? hmsg
  have hm : m ≠ owner := by
    rintro rfl
    rw [h.lookup] at hmem
    cases hmem
  have hvalid := h.valid m
  have hkind := hvalid.lookup msg hmem
  have husubr : msg ≠ .usubr := by
    rcases hkind with rfl | ⟨s, rfl, -⟩ <;> nofun
  refine h.keep hm rfl ⟨hvalid.length, hvalid.nodup, hvalid.members, fun msg' hmsg' =>
    hvalid.lookup msg' (mem_of_mem_eraseIdx hmsg'), fun s hs => ?_, hvalid.fromOwner⟩ h.nodup
    (fun _ _ => Iff.rfl) fun halive => ?_
  · rcases mem_append.1 hs with hs | hs
    · exact hvalid.toOwner s hs
    · rcases hkind with rfl | ⟨t, rfl, ht⟩
      · cases mem_singleton.1 hs
      · cases mem_singleton.1 hs
        exact ht
  · obtain ⟨horder, hjoined, hresults, hdelr⟩ := (h.alive halive).linked m hm
    refine ⟨pairwise_append.2 ⟨horder, pairwise_singleton _ _, ?_⟩, fun hchannel => ?_,
      hresults, hdelr⟩
    · rintro a - b hb - -
      rwa [mem_singleton.1 hb]
    · obtain ⟨hnot, hremote⟩ := hjoined hchannel
      refine ⟨fun hmem => ?_, hremote⟩
      rcases mem_append.1 hmem with hmem | hmem
      · exact hnot hmem
      · exact husubr (mem_singleton.1 hmem).symm

theorem pop {rest : List ToOwner} (hmsg : (w.nodes m).toOwner = msg :: rest) :
    m ≠ owner ∧ Grouped owner (w.setNode m { w.nodes m with toOwner := rest }) := by
  have hm : m ≠ owner := by
    rintro rfl
    rw [h.toOwner] at hmsg
    cases hmsg
  have hvalid := h.valid m
  refine ⟨hm, h.keep hm rfl ⟨hvalid.length, hvalid.nodup, hvalid.members, hvalid.lookup,
    fun s hs => hvalid.toOwner s (hmsg ▸ mem_cons_of_mem _ hs), hvalid.fromOwner⟩ h.nodup
    (fun _ _ => Iff.rfl) fun halive => ?_⟩
  obtain ⟨horder, hjoined, hresults, hdelr⟩ := (h.alive halive).linked m hm
  rw [hmsg] at horder hjoined
  exact ⟨(pairwise_cons.1 horder).2, fun hchannel =>
    ⟨fun hmem => (hjoined hchannel).1 (mem_cons_of_mem _ hmem), (hjoined hchannel).2⟩,
    hresults, hdelr⟩

omit h in
theorem request_subr (hm : m ≠ owner) (rest : List ToOwner) (s : Service) :
    Multicast.request owner (w.setNode m { w.nodes m with toOwner := rest }) m (.subr s) =
      let answer (none : Bool) : World := w.setNode m { w.nodes m with
        toOwner := rest
        fromOwner := (w.nodes m).fromOwner ++ [.result s none] }
      match (w.nodes owner).channel with
      | none => .ok (answer true)
      | some _ =>
        if m ∈ w.remote.getD [] then .ok (answer false)
        else if w.sending ≠ [] then .error .newKey
        else .ok { answer false with remote := some (m :: w.remote.getD []) } := by
  have hchannel : ((w.setNode m { w.nodes m with toOwner := rest }).nodes owner).channel =
      (w.nodes owner).channel := congrArg Node.channel (update_of_ne (Ne.symm hm) _ _)
  have hnode : (w.setNode m { w.nodes m with toOwner := rest }).nodes m =
      { w.nodes m with toOwner := rest } := update_self _ _ _
  unfold Multicast.request
  dsimp only
  rw [hchannel, hnode]
  cases (w.nodes owner).channel <;> simp only [World.setNode, Function.update_idem]

theorem request {rest : List ToOwner} (hmsg : (w.nodes m).toOwner = msg :: rest)
    (hs : request owner (w.setNode m { w.nodes m with toOwner := rest }) m msg = .ok w') :
    Grouped owner w' := by
  obtain ⟨hm, hpop⟩ := h.pop hmsg
  have hvalid := h.valid m
  cases msg with
  | del =>
    cases hs
    exact hpop.delete
  | usubr =>
    cases hs
    have herase : (w.remote.map (·.erase m)).getD [] = (w.remote.getD []).erase m := by
      cases w.remote <;> rfl
    change Groups owner (update w.nodes m { w.nodes m with toOwner := rest })
      (w.remote.map (·.erase m)) w.deleting w.acked
    refine h.keep hm rfl ⟨hvalid.length, hvalid.nodup, hvalid.members, hvalid.lookup,
      fun s hs => hvalid.toOwner s (hmsg ▸ mem_cons_of_mem _ hs), hvalid.fromOwner⟩ ?_
      (fun k hk => ?_) fun halive => ?_
    · rw [herase]
      exact h.nodup.erase m
    · rw [herase]
      exact mem_erase_of_ne hk
    · obtain ⟨horder, hjoined, hresults, hdelr⟩ := (h.alive halive).linked m hm
      rw [hmsg] at horder hjoined
      exact ⟨(pairwise_cons.1 horder).2, fun hchannel =>
        absurd mem_cons_self (hjoined hchannel).1, hresults, hdelr⟩
  | subr s =>
    have hsource : s.node = m := hvalid.toOwner s (hmsg ▸ mem_cons_self)
    rw [request_subr hm] at hs
    dsimp only at hs
    cases hdead : (w.nodes owner).channel with
    | none =>
      rw [hdead] at hs
      cases hs
      refine h.keep hm rfl ⟨hvalid.length, hvalid.nodup, hvalid.members, hvalid.lookup,
        fun s hs => hvalid.toOwner s (hmsg ▸ mem_cons_of_mem _ hs), fun t b ht => ?_⟩ h.nodup
        (fun _ _ => Iff.rfl) fun halive => absurd hdead halive
      rcases mem_append.1 ht with ht | ht
      · exact hvalid.fromOwner t b ht
      · cases mem_singleton.1 ht
        exact hsource
    | some g =>
      rw [hdead] at hs
      have hanswer {remote' : Option (List ℕ)} (hnodup : (remote'.getD []).Nodup)
          (hremote : ∀ k ≠ m, k ∈ remote'.getD [] ↔ k ∈ w.remote.getD [])
          (hjoin : m ∈ remote'.getD []) : Groups owner (update w.nodes m { w.nodes m with
            toOwner := rest
            fromOwner := (w.nodes m).fromOwner ++ [.result s false] }) remote' w.deleting
            w.acked := by
        refine h.keep hm rfl ⟨hvalid.length, hvalid.nodup, hvalid.members, hvalid.lookup,
          fun s hs => hvalid.toOwner s (hmsg ▸ mem_cons_of_mem _ hs), fun t b ht => ?_⟩ hnodup
          hremote fun halive => ?_
        · rcases mem_append.1 ht with ht | ht
          · exact hvalid.fromOwner t b ht
          · cases mem_singleton.1 ht
            exact hsource
        · obtain ⟨horder, -, hresults, hdelr⟩ := (h.alive halive).linked m hm
          rw [hmsg] at horder
          obtain ⟨hhead, hrest⟩ := pairwise_cons.1 horder
          refine ⟨hrest, fun _ => ⟨fun hmem => hhead _ hmem s rfl rfl, hjoin⟩, fun t ht => ?_,
            fun ht => ?_⟩
          · rcases mem_append.1 ht with ht | ht
            · exact hresults t ht
            · cases mem_singleton.1 ht
          · rcases mem_append.1 ht with ht | ht
            · exact hdelr ht
            · cases mem_singleton.1 ht
      dsimp only at hs
      by_cases hin : m ∈ w.remote.getD []
      · rw [if_pos hin] at hs
        cases hs
        exact hanswer h.nodup (fun _ _ => Iff.rfl) hin
      · rw [if_neg hin] at hs
        by_cases hsending : w.sending ≠ []
        · rw [if_pos hsending] at hs
          cases hs
        · rw [if_neg hsending] at hs
          cases hs
          have hnodup := nodup_cons.2 ⟨hin, h.nodup⟩
          exact @hanswer (some (m :: w.remote.getD [])) hnodup
            (fun k hk => mem_cons.trans (or_iff_right hk)) mem_cons_self

theorem create (hm : m ≠ owner) (hjoined : (w.nodes owner).channel ≠ none →
    .usubr ∉ (w.nodes m).toOwner ∧ m ∈ w.remote.getD []) :
    Grouped owner (w.create m) ∧ ((w.create m).nodes m).channel ≠ none := by
  unfold World.create
  cases hchannel : (w.nodes m).channel with
  | some g => exact ⟨h, by rw [hchannel]; nofun⟩
  | none =>
    have hself {node : Node} : update w.nodes m node m = node := update_self _ _ _
    refine ⟨?_, ?_⟩
    · refine h.change hm ((h.valid m).withGroup (g := ⟨[], 0⟩) rfl nodup_nil fun s hs => ?_)
        h.nodup (fun _ _ => Iff.rfl) (fun halive => ?_) fun halive t ht =>
        .inl ⟨fun hnode => ?_, ht⟩
      · cases hs
      · obtain ⟨horder, -, hresults, hdelr⟩ := (h.alive halive).linked m hm
        exact ⟨horder, fun _ => hjoined halive, hresults, hdelr⟩
      · obtain ⟨g, hg, -⟩ := (h.alive halive).acked t ht
        rw [hnode, hchannel] at hg
        cases hg
    · change (update w.nodes m _ m).channel ≠ none
      rw [hself]
      nofun

variable {rest : List FromOwner}

theorem popReply {msg : FromOwner} (hmsg : (w.nodes m).fromOwner = msg :: rest) :
    m ≠ owner ∧ Grouped owner (w.setNode m { w.nodes m with fromOwner := rest }) := by
  have hm : m ≠ owner := by
    rintro rfl
    rw [h.fromOwner] at hmsg
    cases hmsg
  have hvalid := h.valid m
  refine ⟨hm, h.keep hm rfl ⟨hvalid.length, hvalid.nodup, hvalid.members, hvalid.lookup,
    hvalid.toOwner, fun s b hs => hvalid.fromOwner s b (hmsg ▸ mem_cons_of_mem _ hs)⟩ h.nodup
    (fun _ _ => Iff.rfl) fun halive => ?_⟩
  obtain ⟨horder, hjoined, hresults, hdelr⟩ := (h.alive halive).linked m hm
  rw [hmsg] at hjoined hresults hdelr
  refine ⟨horder, fun hchannel => hjoined (hchannel.imp_right fun ⟨s, hs⟩ =>
    ⟨s, mem_cons_of_mem _ hs⟩), fun s hs => hresults s (mem_cons_of_mem _ hs),
    fun hs => hdelr (mem_cons_of_mem _ hs)⟩

theorem reply {msg : FromOwner} (hmsg : (w.nodes m).fromOwner = msg :: rest) :
    Grouped owner (reply (w.setNode m { w.nodes m with fromOwner := rest }) m msg) := by
  obtain ⟨hm, hpop⟩ := h.popReply hmsg
  have hchannel : ((w.setNode m { w.nodes m with fromOwner := rest }).nodes owner).channel =
      (w.nodes owner).channel := congrArg Node.channel (update_of_ne (Ne.symm hm) _ _)
  have hnode : (w.setNode m { w.nodes m with fromOwner := rest }).nodes m =
      { w.nodes m with fromOwner := rest } := update_self _ _ _
  have hvalid := h.valid m
  -- these messages say that the owner has no channel
  have hdead (hend : msg = .delr ∨ ∃ s, msg = .result s true) : (w.nodes owner).channel = none := by
    by_contra halive
    obtain ⟨-, -, hresults, hdelr⟩ := (h.alive halive).linked m hm
    rcases hend with rfl | ⟨s, rfl⟩
    · exact hdelr (hmsg ▸ mem_cons_self)
    · exact hresults s (hmsg ▸ mem_cons_self)
  unfold Multicast.reply
  cases msg with
  | delr =>
    dsimp only
    rw [hnode]
    have hvalid' := hpop.valid m
    rw [hnode] at hvalid'
    refine hpop.change hm ⟨nofun, nofun, nofun, hvalid'.lookup, hvalid'.toOwner, hvalid'.fromOwner⟩
      hpop.nodup (fun _ _ => Iff.rfl) (fun halive => ?_) fun halive => ?_
    · exact absurd (hchannel.trans (hdead (.inl rfl))) halive
    · exact absurd (hchannel.trans (hdead (.inl rfl))) halive
  | result s b =>
    have hsource : s.node = m := hvalid.fromOwner s b (hmsg ▸ mem_cons_self)
    cases b with
    | true =>
      exact hpop.answered fun halive => absurd (hchannel.trans (hdead (.inr ⟨s, rfl⟩))) halive
    | false =>
      dsimp only
      subst hsource
      have hjoined (halive : (w.nodes owner).channel ≠ none) :
          .usubr ∉ (w.nodes s.node).toOwner ∧ s.node ∈ w.remote.getD [] :=
        ((h.alive halive).linked s.node hm).joined (.inr ⟨s, hmsg ▸ mem_cons_self⟩)
      obtain ⟨hcreate, hsome⟩ := hpop.create hm fun halive => by
        rw [hnode]
        exact hjoined (hchannel ▸ halive)
      exact hcreate.subscribe fun _ => hsome

theorem sendDelr (hmem : m ∈ w.deleting) :
    Groups owner (update w.nodes m { w.nodes m with
      fromOwner := (w.nodes m).fromOwner ++ [.delr] }) w.remote (w.deleting.erase m) w.acked := by
  have hm : m ≠ owner := fun heq => h.notDeleting (heq ▸ hmem)
  have hdead : (w.nodes owner).channel = none := by
    by_contra halive
    rw [(h.alive halive).deleting] at hmem
    cases hmem
  have hvalid := h.valid m
  have hnode : Valid m { w.nodes m with fromOwner := (w.nodes m).fromOwner ++ [.delr] } := by
    refine ⟨hvalid.length, hvalid.nodup, hvalid.members, hvalid.lookup, hvalid.toOwner,
      fun s b hs => ?_⟩
    rcases mem_append.1 hs with hs | hs
    · exact hvalid.fromOwner s b hs
    · cases mem_singleton.1 hs
  have hgroups := h.keep hm (by rfl) hnode h.nodup (fun _ _ => Iff.rfl)
    fun halive => absurd hdead halive
  · have howner : update w.nodes m { w.nodes m with
        fromOwner := (w.nodes m).fromOwner ++ [.delr] } owner = w.nodes owner :=
      update_of_ne (Ne.symm hm) _ _
    refine ⟨hgroups.valid, hgroups.lookup, hgroups.toOwner, hgroups.fromOwner, hgroups.nodup,
      hgroups.notOwner, fun hmem => h.notDeleting (mem_of_mem_erase hmem), fun halive => ?_⟩
    rw [howner] at halive
    exact absurd hdead halive

/-- The publications on their way to a node do not matter. -/
theorem forward (m : ℕ) (forwarded : List ℕ) :
    Groups owner (update w.nodes m { w.nodes m with forwarded }) w.remote w.deleting
      w.acked := by
  have hvalid := h.valid m
  have hvalid' : Valid m { w.nodes m with forwarded } := ⟨hvalid.length, hvalid.nodup,
    hvalid.members, hvalid.lookup, hvalid.toOwner, hvalid.fromOwner⟩
  by_cases hm : m = owner
  · subst hm
    refine h.change_owner hvalid' rfl rfl rfl id fun halive t ht => ?_
    by_cases hnode : t.node = m
    · obtain ⟨g, hg, hmem⟩ := (h.alive halive).acked t ht
      exact .inr ⟨hnode, g, hnode ▸ hg, hmem⟩
    · exact .inl ⟨hnode, ht⟩
  · refine h.keep hm rfl hvalid' h.nodup (fun _ _ => Iff.rfl) fun halive => ?_
    obtain ⟨horder, hjoined, hresults, hdelr⟩ := (h.alive halive).linked m hm
    exact ⟨horder, hjoined, hresults, hdelr⟩

theorem del (m : ℕ) : Grouped owner (del owner w m) := by
  unfold Multicast.del
  by_cases hm : m = owner
  · rw [if_pos hm]
    exact h.delete
  · rw [if_neg hm]
    have hvalid := h.valid m
    refine h.keep hm rfl ⟨hvalid.length, hvalid.nodup, hvalid.members, fun msg hmsg => ?_,
      hvalid.toOwner, hvalid.fromOwner⟩ h.nodup (fun _ _ => Iff.rfl) fun halive => ?_
    · rcases mem_append.1 hmsg with hmsg | hmsg
      · exact hvalid.lookup msg hmsg
      · exact .inl (mem_singleton.1 hmsg)
    · obtain ⟨horder, hjoined, hresults, hdelr⟩ := (h.alive halive).linked m hm
      exact ⟨horder, hjoined, hresults, hdelr⟩

theorem publish : Grouped owner (publish owner w) := by
  unfold Multicast.publish
  cases (w.nodes owner).channel <;> exact h

theorem step {e : Event} (hsettled : Settled owner w e) (hs : step owner w e = .ok w') :
    Grouped owner w' := by
  unfold Multicast.step at hs
  cases e with
  | sub s =>
    cases hs
    exact h.sub
  | usub s =>
    cases hs
    exact h.usub hsettled
  | del m =>
    cases hs
    exact h.del m
  | pub m =>
    cases hs
    unfold pub
    split_ifs
    · exact h.publish
    · exact h
  | lookup m i =>
    dsimp only at hs
    cases hmsg : (w.nodes m).lookup[i]? with
    | none =>
      rw [hmsg] at hs
      cases hs
    | some msg =>
      rw [hmsg] at hs
      cases hs
      exact h.lookup hmsg
  | request m =>
    dsimp only at hs
    cases hmsg : (w.nodes m).toOwner with
    | nil =>
      rw [hmsg] at hs
      cases hs
    | cons msg rest =>
      rw [hmsg] at hs
      exact h.request hmsg hs
  | reply m =>
    dsimp only at hs
    cases hmsg : (w.nodes m).fromOwner with
    | nil =>
      rw [hmsg] at hs
      cases hs
    | cons msg rest =>
      rw [hmsg] at hs
      cases hs
      exact h.reply hmsg
  | multicast =>
    dsimp only at hs
    split_ifs at hs
    cases hs
    exact Grouped.publish (w := { w with forwards := w.forwards - 1 }) h
  | send p m =>
    dsimp only at hs
    split_ifs at hs
    cases hs
    exact h.forward m _
  | skip p m =>
    dsimp only at hs
    split_ifs at hs
    cases hs
    exact h
  | delr m =>
    dsimp only at hs
    split_ifs at hs with hmem
    cases hs
    exact h.sendDelr hmem
  | arrive m p =>
    dsimp only at hs
    split_ifs at hs
    cases hs
    have hforward := h.forward m ((w.nodes m).forwarded.erase p)
    unfold arrive
    split
    · exact hforward
    · exact hforward

end Grouped

end Mtask.Multicast
