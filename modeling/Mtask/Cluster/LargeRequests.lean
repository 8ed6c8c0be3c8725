import Mathlib.Data.List.Perm.Basic
import Mtask.Cluster.Clusterd

/-!
# Requests of several nodes

`large_request` has one entry for each session, and the nodes choose their sessions independently.
As long as no package arrives for a session in which another request has begun to arrive, and no
connection ends while another one has begun a request, every request is handed on as it was sent.
-/

namespace Mtask.Cluster

open Function (update update_of_ne update_self)
open List

/-- The request has begun to arrive. -/
def Sending.Begun (r : Sending) : Prop :=
  r.arrived ≠ []

/-- Every request that was handed on is answered or waits, and what was written answers such
requests, on their connections and in their sessions. -/
structure Clusterd.Accounted (c : Clusterd) : Prop where
  answered : c.served.Perm (c.answers.map Answer.call ++ c.pending)
  written : c.written = c.answers.flatMap fun a =>
    (packagesOf (packresponse a.call.session a.ok a.reply)).map fun p => (a.call.fd, p)

/-- Every request that is complete has been handed on once, with its address and its message. -/
structure World.Faithful (w : World) : Prop where
  served : w.clusterd.served = w.completed
  accounted : w.clusterd.Accounted

/-- No package arrives in a session in which another request has begun to arrive, and a request that
asks for a name is a packed value. A connection ends only when no request of another one has begun
to arrive, and there is a warning only when no request has. -/
def World.Separate (lib : Packing) (w : World) : Event → Prop
  | .package k => ∀ r, w.requests k = some r →
      (r.addr = .number 0 → lib.unpack r.msg ≠ none) ∧
      ∀ k' r', w.requests k' = some r' → r'.Begun → r'.session = r.session → k' = k
  | .closed fd => ∀ k r, w.requests k = some r → r.Begun → r.fd = fd
  | .warning _ => ∀ k r, w.requests k = some r → ¬ r.Begun
  | _ => True

/-! ### The packages of one request -/

variable {x : UnpackedRequest}

/-- A package at any place among those of a request. -/
theorem RequestCarries.at {addr : Address} {session : ℕ} {msg : Bytes}
    {l₁ l₂ : List UnpackedRequest} (h : RequestCarries addr session msg (l₁ ++ x :: l₂)) :
    x.session = session ∧ (x.padding = true ↔ l₂ ≠ []) ∧ (l₁ = [] → x.addr = some addr) ∧
      (l₁ = [] → l₂ = [] → x.data = .bytes msg) ∧
      (l₁ ≠ [] → l₂ = [] → concat (l₁.map UnpackedRequest.data ++ [x.data]) = .ok (some msg)) := by
  rcases h with ⟨-, h⟩ | ⟨⟨init, last, h⟩, hconcat⟩
  · cases l₁ with
    | nil =>
      obtain ⟨rfl, rfl⟩ := cons_eq_cons.mp h
      exact ⟨rfl, by simp, fun _ => rfl, fun _ _ => rfl, fun h => absurd rfl h⟩
    | cons y l₁ => simp at h
  · cases l₁ with
    | nil =>
      obtain ⟨rfl, rfl⟩ := cons_eq_cons.mp h
      exact ⟨rfl, by simp, fun _ => rfl, by simp, fun h => absurd rfl h⟩
    | cons y l₁ =>
      obtain ⟨rfl, htail⟩ := cons_eq_cons.mp h
      rcases eq_nil_or_concat l₂ with rfl | ⟨l₂, z, rfl⟩
      · -- the last package
        obtain ⟨-, hx⟩ := append_inj' htail rfl
        obtain rfl := singleton_inj.mp hx
        refine ⟨rfl, by simp [UnpackedRequest.part], by simp, by simp, fun _ _ => ?_⟩
        rw [map_append] at hconcat
        exact hconcat
      · -- a package in the middle
        have hsplit : (l₁ ++ x :: l₂) ++ [z] = init.map (UnpackedRequest.part session false) ++
            [UnpackedRequest.part session true last] := by
          rw [append_assoc, cons_append, ← concat_eq_append]
          exact htail
        obtain ⟨hinit, -⟩ := append_inj' hsplit rfl
        have hmem : x ∈ init.map (UnpackedRequest.part session false) := by
          rw [← hinit]
          simp
        obtain ⟨s, -, rfl⟩ := mem_map.mp hmem
        exact ⟨rfl, by simp [UnpackedRequest.part], by simp, by simp, by simp⟩

/-- What has arrived of a request is in `large_request`, and the rest completes it. -/
def Sending.Arriving (large : ℕ → Option LargeRequest) (r : Sending) : Prop :=
  ∃ l₁ l₂, r.arrived.map unpackrequest = l₁.map .ok ∧ r.rest.map unpackrequest = l₂.map .ok ∧
    RequestCarries r.addr r.session r.msg (l₁ ++ l₂) ∧
    (r.Begun → large r.session = some ⟨some r.addr, l₁.map UnpackedRequest.data⟩)

variable {req : LargeRequest}

namespace Clusterd

variable {c : Clusterd} {lib : Packing}

theorem largeRequest_serve (call : Call) : (c.serve lib call).largeRequest = c.largeRequest := by
  rw [serve]
  split
  · split
    · rfl
    · split <;> rfl
  · rfl

theorem served_serve (call : Call) : (c.serve lib call).served = c.served ++ [call] := by
  rw [serve]
  split
  · split
    · rfl
    · split <;> rfl
  · rfl

namespace Accounted

variable {call : Call}

theorem answer (ok : Bool) (reply : Bytes)
    (h : c.served.Perm (c.answers.map Answer.call ++ call :: c.pending))
    (hw : c.written = c.answers.flatMap fun a =>
      (packagesOf (packresponse a.call.session a.ok a.reply)).map fun p => (a.call.fd, p)) :
    (c.answer call ok reply).Accounted where
  answered := by
    simp only [Clusterd.answer, write, map_append, map_cons, map_nil]
    rwa [append_assoc, singleton_append]
  written := by
    simp only [Clusterd.answer, write, flatMap_append, flatMap_cons, flatMap_nil,
      append_nil, hw]

/-- A request is handed on; if it asks for a name, it is a packed value. -/
theorem serve {call : Call} (h : c.Accounted)
    (hcall : call.addr = some (.number 0) → lib.unpack call.msg ≠ none) :
    (c.serve lib call).Accounted := by
  have hperm : (c.served ++ [call]).Perm (c.answers.map Answer.call ++ call :: c.pending) := by
    refine (h.answered.append_right [call]).trans ?_
    rw [append_assoc]
    exact (perm_append_singleton call c.pending).append_left _
  rw [Clusterd.serve]
  split
  · next haddr =>
    split
    · next hnone => exact absurd hnone (hcall haddr)
    · split
      · exact answer _ _ hperm h.written
      · exact answer _ _ hperm h.written
  · refine ⟨hperm.trans ?_, h.written⟩
    exact (perm_append_singleton call c.pending).symm.append_left _

end Accounted

variable {fd : ℕ} {package : Bytes} {addr : Address} {session : ℕ} {msg : Bytes}

theorem socketData_padding (hx : unpackrequest package = .ok x) (hpad : x.padding = true) :
    c.socketData lib fd package = .ok { c with
      largeRequest := update c.largeRequest x.session
        (some { (c.largeRequest x.session).getD ⟨x.addr, []⟩ with
          parts := ((c.largeRequest x.session).getD ⟨x.addr, []⟩).parts ++ [x.data] }) } := by
  rw [socketData, hx]
  exact if_pos hpad

theorem socketData_single (hx : unpackrequest package = .ok x) (hpad : ¬ x.padding = true)
    (hnone : c.largeRequest x.session = none) (hdata : x.data = .bytes msg) :
    c.socketData lib fd package = .ok (c.serve lib ⟨fd, x.session, x.addr, msg⟩) := by
  rw [socketData, hx]
  simp only [if_neg hpad, hnone, hdata]

theorem socketData_last (hx : unpackrequest package = .ok x) (hpad : ¬ x.padding = true)
    (hreq : c.largeRequest x.session = some req)
    (hconcat : concat (req.parts ++ [x.data]) = .ok (some msg)) :
    c.socketData lib fd package =
      .ok (({ c with
        largeRequest := update c.largeRequest x.session none } : Clusterd).serve
        lib ⟨fd, x.session, req.addr, msg⟩) := by
  rw [socketData, hx]
  simp only [if_neg hpad, hreq, hconcat]

end Clusterd

namespace World

/-- What every event keeps: what has arrived of the requests is in `large_request`, and nothing
else is. -/
structure Sorted (w : World) : Prop where
  arriving : ∀ k r, w.requests k = some r → r.Arriving w.clusterd.largeRequest
  owner : ∀ s req, w.clusterd.largeRequest s = some req →
    ∃ k r, w.requests k = some r ∧ r.Begun ∧ r.session = s
  single : ∀ k r k' r', w.requests k = some r → w.requests k' = some r' → r.Begun → r'.Begun →
    r.session = r'.session → k = k'
  fresh : ∀ k r, w.requests k = some r → k < w.nextRequest
  faithful : w.Faithful

variable {r : Sending} {package : Bytes} {k : ℕ} {clusterd : Clusterd} {rest : List Bytes}

namespace Sorted

variable {w w' : World} {lib : Packing}

theorem init : Sorted init where
  arriving _ _ h := by cases h
  owner _ _ h := by cases h
  single _ _ _ _ h := by cases h
  fresh _ _ h := by cases h
  faithful :=
    { served := rfl
      accounted :=
        { answered := .refl _
          written := rfl } }

theorem send {fd session : ℕ} {addr : Address} {msg : Bytes} (h : Sorted w) (haddr : addr.Valid)
    (hpos : 0 < session) (hs : session < 2 ^ 31) (hlen : msg.length < 2 ^ 31)
    (hsend : w.send fd addr session msg = .ok w') : Sorted w' := by
  obtain ⟨p, l, hpack, -, hunpack, hcarries, -⟩ := request_round_trip haddr hpos hs hlen
  unfold World.send at hsend
  rw [hpack] at hsend
  cases hsend
  have hcases {k : ℕ} {r : Sending} (hr : update w.requests w.nextRequest
      (some ⟨fd, addr, session, msg, [], p.packages.map strip⟩) k = some r) :
      (k = w.nextRequest ∧ r = ⟨fd, addr, session, msg, [], p.packages.map strip⟩) ∨
      w.requests k = some r := by
    by_cases hk : k = w.nextRequest
    · rw [hk, update_self] at hr
      exact .inl ⟨hk, (Option.some.inj hr).symm⟩
    · rw [update_of_ne hk] at hr
      exact .inr hr
  have hbegun {k : ℕ} {r : Sending} (hr : update w.requests w.nextRequest
      (some ⟨fd, addr, session, msg, [], p.packages.map strip⟩) k = some r) (hb : r.Begun) :
      w.requests k = some r := by
    rcases hcases hr with ⟨-, rfl⟩ | hr
    · exact absurd rfl hb
    · exact hr
  refine ⟨fun k r hr => ?_, fun s req hreq => ?_, fun k r k' r' hr hr' hb hb' => ?_,
    fun k r hr => ?_, { h.faithful with }⟩
  · rcases hcases hr with ⟨-, rfl⟩ | hr
    · refine ⟨[], l, rfl, ?_, hcarries, fun hb => absurd rfl hb⟩
      rw [map_map]
      exact hunpack
    · exact h.arriving k r hr
  · obtain ⟨k, r, hr, hb, hsession⟩ := h.owner s req hreq
    refine ⟨k, r, (update_of_ne ?_ ..).trans hr, hb, hsession⟩
    exact Nat.ne_of_lt (h.fresh k r hr)
  · exact h.single k r k' r' (hbegun hr hb) (hbegun hr' hb') hb hb'
  · rcases hcases hr with ⟨rfl, -⟩ | hr
    · exact Nat.lt_succ_self _
    · exact Nat.lt_succ_of_lt (h.fresh k r hr)

/-- A connection ends, or there is a warning: `large_request` is emptied, and the requests of the
connection are lost. -/
theorem ended (h : Sorted w) (lost : Sending → Bool) (isOpen : ℕ → Bool)
    (hlost : ∀ k r, w.requests k = some r → r.Begun → lost r = true) :
    Sorted { w with
      clusterd := w.clusterd.socketEnd
      isOpen := isOpen
      requests := fun k => (w.requests k).filter fun r => !lost r } := by
  have hkept {k : ℕ} {r : Sending}
      (hr : ((w.requests k).filter fun r => !lost r) = some r) :
      w.requests k = some r ∧ ¬ r.Begun := by
    rw [Option.filter_eq_some_iff] at hr
    refine ⟨hr.1, fun hb => ?_⟩
    rw [hlost k r hr.1 hb] at hr
    exact absurd hr.2 (by simp)
  refine ⟨fun k r hr => ?_, fun s req hreq => ?_, fun k r k' r' hr hr' hb hb' => ?_,
    fun k r hr => ?_, ?_⟩
  · obtain ⟨hr, hnot⟩ := hkept hr
    obtain ⟨l₁, l₂, harr, hrest, hcarries, -⟩ := h.arriving k r hr
    exact ⟨l₁, l₂, harr, hrest, hcarries, fun hb => absurd hb hnot⟩
  · cases hreq
  · exact absurd hb (hkept hr).2
  · exact h.fresh k r (hkept hr).1
  · exact ⟨h.faithful.served, h.faithful.accounted.answered, h.faithful.accounted.written⟩

theorem returned {i : ℕ} {ok : Bool} {reply : Bytes} (h : Sorted w)
    (hs : w.returned i ok reply = .ok w') : Sorted w' := by
  rw [World.returned] at hs
  cases hcall : w.clusterd.pending[i]? with
  | none => simp [hcall] at hs
  | some call =>
    rw [hcall] at hs
    cases hs
    obtain ⟨hi, rfl⟩ := List.getElem?_eq_some_iff.mp hcall
    refine { h with faithful := ⟨h.faithful.served, .answer _ _ ?_ h.faithful.accounted.written⟩ }
    refine h.faithful.accounted.answered.trans (List.Perm.append_left _ ?_)
    exact (getElem_cons_eraseIdx_perm hi).symm

section

variable (h : Sorted w) (hok : w.Separate lib (.package k)) (hr : w.requests k = some r)
include h hok hr

theorem socketData_complete (hrest : r.rest = [package]) :
    w.clusterd.socketData lib r.fd package = .ok (({ w.clusterd with
      largeRequest := update w.clusterd.largeRequest r.session none } : Clusterd).serve
        lib r.call) := by
  obtain ⟨l₁, l₂, harr, hunpack, hcarries, hlarge⟩ := h.arriving k r hr
  rw [hrest] at hunpack
  obtain ⟨x, hx, rfl⟩ : ∃ x, unpackrequest package = .ok x ∧ l₂ = [x] := by
    obtain ⟨x, l, rfl, hx, hl⟩ := map_eq_cons_iff.mp hunpack.symm
    exact ⟨x, hx.symm, by rw [map_eq_nil_iff.mp hl]⟩
  obtain ⟨hsession, hpad, haddr, hdata, hconcat⟩ := hcarries.at
  have hlast : ¬ x.padding = true := by simp [hpad]
  rw [← hsession] at hlarge ⊢
  by_cases hb : r.Begun
  · have hne : l₁ ≠ [] := by
      rintro rfl
      exact hb (map_eq_nil_iff.mp harr)
    rw [Clusterd.socketData_last hx hlast (hlarge hb) (hconcat hne rfl), hsession]
    rfl
  · have hnil : l₁ = [] := by
      rw [Sending.Begun, not_not] at hb
      rw [hb] at harr
      exact map_eq_nil_iff.mp harr.symm
    have hnone : w.clusterd.largeRequest x.session = none := by
      by_contra hsome
      obtain ⟨req, hreq⟩ := Option.ne_none_iff_exists'.mp hsome
      obtain ⟨k', r', hr', hb', hsession'⟩ := h.owner x.session req hreq
      obtain rfl := (hok r hr).2 k' r' hr' hb' (hsession'.trans hsession)
      obtain rfl := Option.some.inj (hr.symm.trans hr')
      exact hb hb'
    rw [Clusterd.socketData_single hx hlast hnone (hdata hnil rfl), haddr hnil, hsession,
      ← hsession, Function.update_eq_self_iff.mpr hnone.symm, hsession]
    rfl

/-- The last package of a request arrives, and the request is handed on. -/
theorem complete (hclusterd : clusterd = ({ w.clusterd with
      largeRequest := update w.clusterd.largeRequest r.session none } : Clusterd).serve
      lib r.call) :
    Sorted { w with
      clusterd
      requests := update w.requests k none
      completed := w.completed ++ [r.call] } := by
  obtain ⟨hname, hothers⟩ := hok r hr
  have hlarge : clusterd.largeRequest = update w.clusterd.largeRequest r.session none := by
    rw [hclusterd, Clusterd.largeRequest_serve]
  have hkept {k' : ℕ} {r' : Sending} (hr' : update w.requests k none k' = some r') :
      k' ≠ k ∧ w.requests k' = some r' := by
    by_cases hk : k' = k
    · rw [hk, update_self] at hr'
      cases hr'
    · rw [update_of_ne hk] at hr'
      exact ⟨hk, hr'⟩
  -- another request that has begun to arrive has another session
  have hsession {k' : ℕ} {r' : Sending} (hk : k' ≠ k) (hr' : w.requests k' = some r')
      (hb : r'.Begun) : r'.session ≠ r.session := fun heq => hk (hothers k' r' hr' hb heq)
  refine ⟨fun k' r' hr' => ?_, fun s req hreq => ?_, fun k₁ r₁ k₂ r₂ h₁ h₂ => ?_,
    fun k' r' hr' => ?_, ?_, ?_⟩
  · obtain ⟨hk, hr'⟩ := hkept hr'
    obtain ⟨l₁, l₂, harr, hrest, hcarries, hbegun⟩ := h.arriving k' r' hr'
    refine ⟨l₁, l₂, harr, hrest, hcarries, fun hb => ?_⟩
    change clusterd.largeRequest r'.session = _
    rw [hlarge, update_of_ne (hsession hk hr' hb), hbegun hb]
  · change clusterd.largeRequest s = some req at hreq
    rw [hlarge] at hreq
    by_cases hs : s = r.session
    · rw [hs, update_self] at hreq
      cases hreq
    · rw [update_of_ne hs] at hreq
      obtain ⟨k', r', hr', hb, hsession'⟩ := h.owner s req hreq
      refine ⟨k', r', (update_of_ne ?_ ..).trans hr', hb, hsession'⟩
      rintro rfl
      obtain rfl := Option.some.inj (hr.symm.trans hr')
      exact hs hsession'.symm
  · exact h.single k₁ r₁ k₂ r₂ (hkept h₁).2 (hkept h₂).2
  · exact h.fresh k' r' (hkept hr').2
  · change clusterd.served = w.completed ++ [r.call]
    rw [hclusterd, Clusterd.served_serve, ← h.faithful.served]
  · change clusterd.Accounted
    rw [hclusterd]
    refine Clusterd.Accounted.serve ⟨h.faithful.accounted.answered, h.faithful.accounted.written⟩ ?_
    intro haddr
    exact hname (Option.some.inj haddr)

theorem progress (hrest : r.rest = package :: rest) (hne : rest ≠ [])
    (hdata : w.clusterd.socketData lib r.fd package = .ok clusterd) :
    Sorted { w with
      clusterd
      requests := update w.requests k
        (some { r with arrived := r.arrived ++ [package], rest }) } := by
  obtain ⟨-, hothers⟩ := hok r hr
  obtain ⟨l₁, l₂, harr, hunpack, hcarries, hlarge⟩ := h.arriving k r hr
  rw [hrest] at hunpack
  obtain ⟨x, l, rfl, hx, hl⟩ := map_eq_cons_iff.mp hunpack.symm
  have hlne : l ≠ [] := by
    rintro rfl
    exact hne (map_eq_nil_iff.mp hl.symm)
  obtain ⟨hsession, hpad, haddr, -⟩ := hcarries.at
  rw [Clusterd.socketData_padding hx.symm (hpad.mpr hlne)] at hdata
  cases hdata
  rw [hsession]
  -- the table before the package
  have hreq : (w.clusterd.largeRequest r.session).getD ⟨x.addr, []⟩ =
      ⟨some r.addr, l₁.map UnpackedRequest.data⟩ := by
    by_cases hb : r.Begun
    · rw [hlarge hb]
      rfl
    · have hnil : l₁ = [] := by
        rw [Sending.Begun, not_not] at hb
        rw [hb] at harr
        exact map_eq_nil_iff.mp harr.symm
      have hnone : w.clusterd.largeRequest r.session = none := by
        by_contra hsome
        obtain ⟨req, hreq⟩ := Option.ne_none_iff_exists'.mp hsome
        obtain ⟨k', r', hr', hb', hsession'⟩ := h.owner r.session req hreq
        obtain rfl := hothers k' r' hr' hb' hsession'
        obtain rfl := Option.some.inj (hr.symm.trans hr')
        exact hb hb'
      rw [hnone, hnil, haddr hnil]
      rfl
  rw [hreq]
  have hcases {k' : ℕ} {r' : Sending} (hr' : update w.requests k
      (some { r with arrived := r.arrived ++ [package], rest }) k' = some r') :
      (k' = k ∧ r' = { r with arrived := r.arrived ++ [package], rest }) ∨
      (k' ≠ k ∧ w.requests k' = some r') := by
    by_cases hk : k' = k
    · rw [hk, update_self] at hr'
      exact .inl ⟨hk, (Option.some.inj hr').symm⟩
    · rw [update_of_ne hk] at hr'
      exact .inr ⟨hk, hr'⟩
  refine ⟨fun k' r' hr' => ?_, fun s req hs => ?_, fun k₁ r₁ k₂ r₂ h₁ h₂ hb₁ hb₂ heq => ?_,
    fun k' r' hr' => ?_, { h.faithful with accounted := { h.faithful.accounted with } }⟩
  · rcases hcases hr' with ⟨-, rfl⟩ | ⟨hk, hr'⟩
    · refine ⟨l₁ ++ [x], l, ?_, hl.symm, ?_, fun _ => ?_⟩
      · rw [map_append, harr, map_append, map_singleton, map_singleton, hx]
      · rw [append_assoc]
        exact hcarries
      · refine (update_self ..).trans ?_
        rw [map_append]
        rfl
    · obtain ⟨l₁', l₂', harr', hrest', hcarries', hbegun'⟩ := h.arriving k' r' hr'
      refine ⟨l₁', l₂', harr', hrest', hcarries', fun hb => ?_⟩
      exact (update_of_ne (fun hs => hk (hothers k' r' hr' hb hs)) ..).trans (hbegun' hb)
  · by_cases hsr : s = r.session
    · exact ⟨k, _, update_self .., by simp [Sending.Begun], hsr.symm⟩
    · change update w.clusterd.largeRequest r.session _ s = some req at hs
      rw [update_of_ne hsr] at hs
      obtain ⟨k', r', hr', hb, hsession'⟩ := h.owner s req hs
      refine ⟨k', r', (update_of_ne ?_ ..).trans hr', hb, hsession'⟩
      rintro rfl
      obtain rfl := Option.some.inj (hr.symm.trans hr')
      exact hsr hsession'.symm
  · rcases hcases h₁ with ⟨rfl, rfl⟩ | ⟨-, hw₁⟩
    · rcases hcases h₂ with ⟨rfl, -⟩ | ⟨-, hw₂⟩
      · rfl
      · exact (hothers k₂ r₂ hw₂ hb₂ heq.symm).symm
    · rcases hcases h₂ with ⟨rfl, rfl⟩ | ⟨-, hw₂⟩
      · exact hothers k₁ r₁ hw₁ hb₁ heq
      · exact h.single k₁ r₁ k₂ r₂ hw₁ hw₂ hb₁ hb₂ heq
  · rcases hcases hr' with ⟨rfl, -⟩ | ⟨-, hr'⟩
    · exact h.fresh _ r hr
    · exact h.fresh k' r' hr'

end

theorem deliver (h : Sorted w) (hok : w.Separate lib (.package k)) (hs : w.deliver lib k = .ok w') :
    Sorted w' := by
  rw [World.deliver] at hs
  cases hr : w.requests k with
  | none => simp [hr] at hs
  | some r =>
    rw [hr] at hs
    simp only at hs
    cases hrest : r.rest with
    | nil => simp [hrest] at hs
    | cons package rest =>
      rw [hrest] at hs
      simp only at hs
      cases hdata : w.clusterd.socketData lib r.fd package with
      | error e => simp [hdata] at hs
      | ok clusterd =>
        rw [hdata] at hs
        cases hs
        rw [advance]
        by_cases hnil : rest = []
        · rw [if_pos hnil]
          subst hnil
          rw [h.socketData_complete hok hr hrest] at hdata
          exact h.complete hok hr (Except.ok.inj hdata).symm
        · rw [if_neg hnil]
          exact h.progress hok hr hrest hnil hdata

theorem step {e : Event} (h : Sorted w) (hok : w.Separate lib e) (hs : w.step lib e = .ok w') :
    Sorted w' := by
  cases e with
  | opened fd =>
    rw [World.step] at hs
    split_ifs at hs
    cases hs
    exact { h with faithful := { h.faithful with } }
  | request fd addr session msg =>
    rw [World.step] at hs
    split_ifs at hs with hvalid
    obtain ⟨-, haddr, hpos, hsession, hlen⟩ := hvalid
    exact h.send haddr hpos hsession hlen hs
  | package k => exact h.deliver hok hs
  | closed fd =>
    rw [World.step] at hs
    split_ifs at hs
    cases hs
    have hended := h.ended (fun r => r.fd = fd) (update w.isOpen fd false)
      fun k r hr hb => decide_eq_true (hok k r hr hb)
    simpa only [close, decide_not] using hended
  | warning fd =>
    rw [World.step] at hs
    split_ifs at hs
    cases hs
    have hended := h.ended (fun _ => false) w.isOpen fun k r hr hb => absurd hb (hok k r hr)
    have hall : (fun k => (w.requests k).filter fun _ => !false) = w.requests := by
      funext k
      cases w.requests k <;> rfl
    rwa [hall] at hended
  | returned i ok reply => exact h.returned hs
  | register name addr =>
    cases hs
    have hsame : (w.clusterd.register name addr).largeRequest = w.clusterd.largeRequest ∧
        (w.clusterd.register name addr).served = w.clusterd.served ∧
        (w.clusterd.Accounted → (w.clusterd.register name addr).Accounted) := by
      rw [Clusterd.register]
      split
      · exact ⟨rfl, rfl, id⟩
      · exact ⟨rfl, rfl, fun hacc => ⟨hacc.answered, hacc.written⟩⟩
    obtain ⟨hlarge, hserved, hacc⟩ := hsame
    refine ⟨fun k r hr => ?_, fun s req hreq => ?_, h.single, h.fresh, ?_,
      hacc h.faithful.accounted⟩
    · rw [hlarge]
      exact h.arriving k r hr
    · exact h.owner s req (hlarge ▸ hreq)
    · exact hserved.trans h.faithful.served

end Sorted

/-- In a run in which the sessions of the requests under way are kept apart, every request that is
complete has been handed on once, as it was sent, and is answered where it came from. -/
theorem requests_faithful (lib : Packing) {w : World}
    (h : Transition.Reaches (World.step lib) (Separate lib) init w) : w.Faithful := by
  have hsorted : Sorted w :=
    h.invariant Sorted.init fun _ _ _ hinv hok hs => hinv.step hok hs
  exact hsorted.faithful

/-- A service without names; the runs below ask for none. -/
def sampleLib : Packing where
  unpack := fun _ => none
  pack := fun _ => []

/-- A node sends a request, which arrives and is answered. -/
theorem requests_faithful_single :
    ∃ w, Transition.exec (World.step sampleLib) init [.opened 1, .request 1 (.number 6) 1 [7],
        .package 0, .returned 0 true [8]] = .ok w ∧
      w.clusterd.written = [(1, [0, 6, 1, 0, 0, 0, 1, 8])] ∧ w.Faithful := by
  refine ⟨_, rfl, rfl, requests_faithful sampleLib (Transition.Permitted.reaches (l := [.opened 1,
    .request 1 (.number 6) 1 [7], .package 0, .returned 0 true [8]]) ?_ rfl)⟩
  refine .cons trivial rfl (.cons trivial rfl (.cons (fun r hr => ⟨?_, ?_⟩) rfl
    (.cons trivial rfl trivial)))
  · cases hr
    nofun
  · intro k' r' hr' _ _
    cases k' with
    | zero => rfl
    | succ k' => cases hr'

theorem deliver_eq {w : World} (lib : Packing) (hr : w.requests k = some r)
    (hrest : r.rest = package :: rest)
    (hdata : w.clusterd.socketData lib r.fd package = .ok clusterd) :
    w.deliver lib k = .ok ({ w with clusterd }.advance k r package rest) := by
  rw [deliver, hr]
  simp only [hrest, hdata]

/-- The last package of a request in whose session another one has begun to arrive: if the parts do
not make up the size, the request is not handed on. -/
theorem deliver_lost {w : World} (lib : Packing) (hr : w.requests k = some r)
    (hrest : r.rest = [package]) (hx : unpackrequest package = .ok x) (hpad : x.padding = false)
    (hreq : w.clusterd.largeRequest x.session = some req)
    (hconcat : concat (req.parts ++ [x.data]) = .ok none) :
    ∃ w', w.deliver lib k = .ok w' ∧ w'.completed = w.completed ++ [r.call] ∧
      w'.clusterd.served = w.clusterd.served := by
  have hdata : w.clusterd.socketData lib r.fd package = .ok
      (({ w.clusterd with
        largeRequest := update w.clusterd.largeRequest x.session none } : Clusterd).write
        r.fd x.session false "Invalid large req".toUTF8.toList) := by
    rw [Clusterd.socketData, hx]
    simp only [hpad, hreq, hconcat]
    rfl
  refine ⟨_, deliver_eq lib hr hrest hdata, ?_, ?_⟩
  · rw [advance, if_pos rfl]
  · rw [advance, if_pos rfl]
    rfl

/-- The node of the connection 1 has begun a large request when a package of the connection 2 with
the same session arrives. The request of the connection 2 is complete and is not handed on. -/
theorem sessions_collide :
    ∃ w, Transition.Reaches (World.step sampleLib) (fun _ _ => True) init w ∧
      w.completed = [⟨2, 1, some (.number 6), [7]⟩] ∧ w.clusterd.served = [] := by
  have hlen : (List.replicate 0x8000 (0 : UInt8)).length = 0x8000 := List.length_replicate
  generalize List.replicate 0x8000 (0 : UInt8) = msg at hlen
  have hround : RequestRoundTrip (.number 5) 1 msg :=
    request_round_trip (by decide) (by decide) (by decide) (by rw [hlen]; decide)
  obtain ⟨p, l, hpack, -, hunpack, hcarries, -⟩ := hround
  rcases hcarries with ⟨hshort, -⟩ | ⟨⟨first, last, rfl⟩, -⟩
  · rw [hlen] at hshort
    exact absurd hshort (by decide)
  -- the packages of the large request
  obtain ⟨q, rest, hq, hheader, hrest⟩ := List.map_eq_cons_iff.mp hunpack
  have hne : rest.map strip ≠ [] := by
    intro hnil
    rw [List.map_eq_nil_iff.mp hnil] at hrest
    simp at hrest
  have hstrip : p.packages.map strip = strip q :: rest.map strip := by
    rw [hq]
    rfl
  -- both nodes send their requests
  have hopened : Transition.Reaches (World.step sampleLib) (fun _ _ => True) init
      { init with isOpen := update (update init.isOpen 1 true) 2 true } :=
    Transition.reaches_of_exec (l := [.opened 1, .opened 2]) rfl fun _ _ _ => trivial
  have hlarge := hopened.tail (a := .request 1 (.number 5) 1 msg) trivial (by
    rw [World.step, if_pos (by rw [hlen]; decide), send]
    simp only [hpack]
    rfl)
  have hsmall := hlarge.tail (a := .request 2 (.number 6) 1 [7]) trivial rfl
  obtain ⟨w, hreach, hr₀, hr₁, hclusterd, hcompleted⟩ : ∃ w : World,
      Transition.Reaches (World.step sampleLib) (fun _ _ => True) init w ∧
      w.requests 0 = some ⟨1, .number 5, 1, msg, [], p.packages.map strip⟩ ∧
      w.requests 1 = some ⟨2, .number 6, 1, [7], [], [[0, 6, 0, 0, 0, 1, 0, 0, 0, 7]]⟩ ∧
      w.clusterd = init.clusterd ∧ w.completed = [] := ⟨_, hsmall, rfl, rfl, rfl, rfl⟩
  -- the large request begins to arrive, and then the other one arrives
  have hfirst := deliver_eq sampleLib hr₀ hstrip
    (Clusterd.socketData_padding hheader rfl)
  rw [advance, if_neg hne] at hfirst
  obtain ⟨w₁, hreach₁, hr, hreq, hserved, hcompleted₁⟩ : ∃ w₁ : World,
      Transition.Reaches (World.step sampleLib) (fun _ _ => True) init w₁ ∧
      w₁.requests 1 = some ⟨2, .number 6, 1, [7], [], [[0, 6, 0, 0, 0, 1, 0, 0, 0, 7]]⟩ ∧
      w₁.clusterd.largeRequest 1 = some ⟨some (.number 5), [.size 0x8000]⟩ ∧
      w₁.clusterd.served = [] ∧ w₁.completed = [] := by
    refine ⟨_, hreach.tail (a := .package 0) trivial hfirst, hr₁, ?_, ?_, hcompleted⟩
    · rw [← hlen, hclusterd]
      rfl
    · rw [hclusterd]
      rfl
  have hx : unpackrequest [0, 6, 0, 0, 0, 1, 0, 0, 0, 7] =
      .ok ⟨some (.number 6), 1, .bytes [7], false⟩ := by decide
  obtain ⟨w₂, hlost, hcompleted₂, hserved₂⟩ := deliver_lost sampleLib hr rfl hx rfl hreq
    (by decide)
  refine ⟨w₂, hreach₁.tail (a := .package 1) trivial hlost, ?_, ?_⟩
  · rw [hcompleted₂, hcompleted₁]
    rfl
  · rw [hserved₂, hserved]

end World

end Mtask.Cluster
