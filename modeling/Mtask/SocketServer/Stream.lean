import Mathlib.Data.List.Basic
import Mtask.Lib.Transition
import Mtask.SocketServer.Socket

/-!
# The stream of a TCP socket

A TCP socket from its connection on, with what is sent on it and the write events that it gets. The
packages that were accepted are either done, or one behind the other in the list of high priority
and then in the list of low priority; only the first of them may be written in part, and then it is
in the list of high priority.
-/

namespace Mtask.SocketServer

open List

/-- A plain buffer, and the priority with which it is sent. -/
structure Package where
  priority : Priority
  buffer : ℕ
  bytes : List UInt8
  deriving DecidableEq, Repr

/-- The request for a package. -/
def Package.object (p : Package) : SendObject where
  object := p.buffer
  buffer := p.buffer
  bytes := p.bytes
  userobject := false

/-- The bytes of some packages. -/
def contents (ps : List Package) : List UInt8 :=
  ps.flatMap Package.bytes

/-- The list for some packages, `k` bytes of the first of which are written. -/
def nodes : List Package → ℕ → List WriteBuffer
  | [], _ => []
  | p :: ps, k => p.object.node k [] :: ps.map fun p => p.object.node 0 []

/-- The part of the first package that is written. -/
def written : List Package → ℕ → List UInt8
  | [], _ => []
  | p :: _, k => p.bytes.take k

/-- The first package is not complete, if it is written in part. -/
def Partial : List Package → ℕ → Prop
  | [], k => k = 0
  | p :: _, k => k = 0 ∨ k < p.bytes.length

/-! ### The loop over a list -/

section Drain

variable {ps qs : List Package} {k : ℕ}

@[simp]
theorem written_zero : written ps 0 = [] := by
  cases ps with
  | nil => rfl
  | cons p ps => exact take_zero (l := p.bytes)

theorem nodes_zero : nodes ps 0 = ps.map fun p => p.object.node 0 [] := by
  cases ps with
  | nil => rfl
  | cons p ps => rfl

theorem nodes_eq_nil_iff : nodes ps k = [] ↔ ps = [] := by
  cases ps with
  | nil => exact iff_of_true rfl rfl
  | cons p ps => exact iff_of_false (cons_ne_nil _ _) (cons_ne_nil _ _)

theorem drain_of_tcp {s : Socket} (htcp : s.protocol = .tcp) (list : List WriteBuffer)
    (results : List WriteResult) : drain s.protocol list results = drainTcp list results := by
  rw [htcp, drain]

theorem nodes_concat (hps : ps ≠ []) (p : Package) :
    nodes (ps ++ [p]) k = nodes ps k ++ [p.object.node 0 []] := by
  cases ps with
  | nil => exact absurd rfl hps
  | cons q ps => simp [nodes]

theorem partial_zero (ps : List Package) : Partial ps 0 := by
  cases ps with
  | nil => rfl
  | cons p ps => exact Or.inl rfl

theorem listUncomplete_nodes (hk : Partial ps k) : listUncomplete (nodes ps k) = true ↔ k ≠ 0 := by
  cases ps with
  | nil => simp [nodes, listUncomplete, show k = 0 from hk]
  | cons p ps => simp [nodes, listUncomplete, SendObject.node, Package.object]

/-- The loop writes the rest of some packages, and a part of the next one. -/
theorem drainTcp_nodes (hk : Partial ps k) (results : List WriteResult) :
    ∃ done rest k', ps = done ++ rest ∧ Partial rest k' ∧
      (drainTcp (nodes ps k) results).rest = nodes rest k' ∧
      written ps k ++ (drainTcp (nodes ps k) results).written =
        contents done ++ written rest k' := by
  induction results generalizing ps k with
  | nil =>
    refine ⟨[], ps, k, rfl, hk, ?_, ?_⟩
    · cases ps <;> rfl
    · cases ps <;> simp [nodes, drainTcp, contents]
  | cons result results ih =>
    cases ps with
    | nil => exact ⟨[], [], 0, rfl, rfl, rfl, rfl⟩
    | cons p ps =>
      cases result with
      | eintr => exact ih hk
      | eagain => exact ⟨[], p :: ps, k, rfl, hk, rfl, by simp [nodes, drainTcp, contents]⟩
      | error => exact ⟨[], p :: ps, k, rfl, hk, rfl, by simp [nodes, drainTcp, contents]⟩
      | wrote n =>
        rw [nodes, drainTcp]
        split_ifs with hpart
        · -- a part of the first package
          have hlt : k + n < p.bytes.length := by
            have : n < (p.bytes.drop k).length := hpart
            rw [length_drop] at this
            omega
          refine ⟨[], p :: ps, k + n, rfl, Or.inr hlt, ?_, ?_⟩
          · rw [nodes]
            simp [SendObject.node, Package.object, Nat.add_assoc]
          · change p.bytes.take k ++ (p.bytes.drop k).take n = _
            rw [written, take_add]
            rfl
        · -- the rest of the first package, and the loop goes on
          rw [← nodes_zero]
          obtain ⟨done, rest, k', rfl, hk', hrest, hwritten⟩ := ih (partial_zero ps)
          rw [written_zero, nil_append] at hwritten
          refine ⟨p :: done, rest, k', rfl, hk', hrest, ?_⟩
          change p.bytes.take k ++ (p.bytes.drop k ++ _) = p.bytes ++ contents done ++ _
          rw [hwritten, ← append_assoc, take_append_drop, append_assoc]

end Drain

/-! ### Runs of a socket -/

/-- A socket, and the packages that were accepted on it. -/
structure StreamState where
  socket : Socket
  accepted : List Package

inductive StreamOp
  | send (p : Package) (results : List WriteResult)
  | event (read write : Bool) (κ : Kernel)

namespace StreamState

/-- A package is accepted unless the socket is closed, before or because the direct write fails. -/
def step (st : StreamState) : StreamOp → Except Fault StreamState
  | .send p results =>
    match st.socket.sendSocket st.socket.id p.object p.priority none results with
    | .ok out => .ok {
        socket := out.socket
        accepted := if out.socket.type = .invalid then st.accepted else st.accepted ++ [p] }
    | .error e => .error e
  | .event read write κ =>
    match st.socket.dispatch read write κ with
    | .ok out => .ok { st with socket := out.socket }
    | .error e => .error e

end StreamState

/-- The accepted packages, of each priority in the order in which they were sent: some that are
done, then those of the two lists, of which the first one has `k` bytes written. -/
structure Arranged (accepted : List Package) (s : Socket) (done high low : List Package)
    (k : ℕ) : Prop where
  cut : Partial high k
  low_priority : ∀ p ∈ low, p.priority = .low
  order : ∀ pr, (done ++ high ++ low).filter (fun p => p.priority = pr) =
    accepted.filter fun p => p.priority = pr
  stream : s.stream = contents done ++ written high k
  lists : s.type ≠ .invalid → s.high = nodes high k ∧ s.low = nodes low 0

/-- A TCP socket that was connecting or connected, with its packages arranged. -/
structure Ordered (accepted : List Package) (s : Socket) : Prop where
  protocol : s.protocol = .tcp
  type : s.type = .connecting ∨ s.type = .connected ∨ s.type = .invalid
  arranged : ∃ done high low k, Arranged accepted s done high low k

section Step

variable {accepted : List Package} {s : Socket} {done high low : List Package} {k : ℕ}

/-- Whoever writes goes on in the order of the packages. -/
theorem Arranged.advance {s' : Socket} {done' high' low' : List Package} {k' : ℕ}
    (h : Arranged accepted s done high low k) (hcut : Partial high' k')
    (hall : done' ++ high' ++ low' = done ++ high ++ low) (hlow : ∀ p ∈ low', p ∈ low)
    (hstream : s'.stream = contents done' ++ written high' k')
    (hlists : s'.type ≠ .invalid → s'.high = nodes high' k' ∧ s'.low = nodes low' 0) :
    Arranged accepted s' done' high' low' k' where
  cut := hcut
  low_priority p hp := h.low_priority p (hlow p hp)
  order pr := by rw [hall, h.order]
  stream := hstream
  lists := hlists

theorem forceClose_eq (hs : s.type = .connecting ∨ s.type = .connected) (type : ReportType) :
    ∃ out, s.forceClose type = .ok out ∧ out.socket.type = .invalid ∧
      out.socket.protocol = s.protocol ∧ out.socket.stream = s.stream := by
  rcases hs with hs | hs
  all_goals
    rw [Socket.forceClose, hs]
    exact ⟨_, rfl, rfl, rfl, rfl⟩

theorem Arranged.forceClose (h : Arranged accepted s done high low k) (htcp : s.protocol = .tcp)
    (hs : s.type = .connecting ∨ s.type = .connected) (type : ReportType) :
    ∃ out, s.forceClose type = .ok out ∧ out.socket.type = .invalid ∧
      Ordered accepted out.socket := by
  obtain ⟨out, hout, hinvalid, hprotocol, hstream⟩ := forceClose_eq hs type
  refine ⟨out, hout, hinvalid, hprotocol.trans htcp, Or.inr (Or.inr hinvalid),
    done, high, low, k, ?_⟩
  exact h.advance h.cut rfl (fun _ hp => hp) (hstream.trans h.stream) fun hne => absurd hinvalid hne

theorem contents_append (ps qs : List Package) :
    contents (ps ++ qs) = contents ps ++ contents qs :=
  flatMap_append

theorem Arranged.sendHigh (h : Arranged accepted s done high low k) (hs : s.type ≠ .invalid)
    (results : List WriteResult) :
    ∃ done' rest k',
      Arranged accepted (s.sendList .high (drainTcp s.high results)) done' rest low k' := by
  obtain ⟨hhigh, hlow⟩ := h.lists hs
  obtain ⟨done₁, rest, k', hall, hcut, hrest, hwritten⟩ := drainTcp_nodes h.cut results
  rw [← hhigh] at hrest hwritten
  refine ⟨done ++ done₁, rest, k', h.advance hcut (by simp [hall]) (fun _ hp => hp) ?_
    fun _ => ⟨hrest, hlow⟩⟩
  calc (s.sendList .high (drainTcp s.high results)).stream
      = contents done ++ (written high k ++ (drainTcp s.high results).written) := by
        rw [← append_assoc, ← h.stream]
        rfl
    _ = contents (done ++ done₁) ++ written rest k' := by
        rw [hwritten, ← append_assoc, contents_append]

/-- The loop over the list of low priority, behind an empty list of high priority. -/
theorem Arranged.sendLow (h : Arranged accepted s done [] low k) (hs : s.type ≠ .invalid)
    (results : List WriteResult) :
    ∃ done' rest k', done' ++ rest = done ++ low ∧ (∀ p ∈ rest, p ∈ low) ∧ Partial rest k' ∧
      (s.sendList .low (drainTcp s.low results)).low = nodes rest k' ∧
      (s.sendList .low (drainTcp s.low results)).stream = contents done' ++ written rest k' := by
  obtain ⟨-, hlow⟩ := h.lists hs
  obtain ⟨done₁, rest, k', hall, hcut, hrest, hwritten⟩ := drainTcp_nodes (partial_zero low) results
  rw [← hlow] at hrest hwritten
  refine ⟨done ++ done₁, rest, k', by rw [hall, append_assoc],
    fun p hp => hall ▸ mem_append_right _ hp, hcut, hrest, ?_⟩
  calc (s.sendList .low (drainTcp s.low results)).stream
      = contents done ++ (written low 0 ++ (drainTcp s.low results).written) := by
        rw [written_zero, nil_append]
        change s.stream ++ _ = _
        rw [h.stream, written, append_nil]
    _ = contents (done ++ done₁) ++ written rest k' := by
        rw [hwritten, ← append_assoc, contents_append]

theorem Arranged.sendBufferLow (h : Arranged accepted s done [] low k) (htcp : s.protocol = .tcp)
    (hs : s.type = .connected) (hhigh : s.high = []) (results : List WriteResult) :
    ∃ out, s.sendBufferLow results = .ok out ∧ Ordered accepted out.socket := by
  have hopen : s.type ≠ .invalid := by simp [hs]
  rw [Socket.sendBufferLow]
  by_cases hlow : s.low ≠ []
  · rw [if_pos hlow]
    simp only [drain_of_tcp htcp]
    obtain ⟨done', rest, k', hall, hmem, hcut, hrest, hstream⟩ := h.sendLow hopen results
    by_cases hfailed : (drainTcp s.low results).failed = true
    · -- a write fails: what is left of both lists stays unwritten
      rw [if_pos hfailed]
      obtain ⟨out, hout, hinvalid, hprotocol, hout_stream⟩ :=
        forceClose_eq (s := s.sendList .low (drainTcp s.low results)) (Or.inr hs) .close
      refine ⟨out, hout, hprotocol.trans htcp, Or.inr (Or.inr hinvalid), done', rest, [], k', ?_⟩
      exact h.advance hcut (by simp [hall]) (fun p hp => by simp at hp) (hout_stream.trans hstream)
        fun hne => absurd hinvalid hne
    rw [if_neg hfailed, hrest]
    cases rest with
    | nil =>
      rw [if_neg (by simp [nodes, listUncomplete])]
      refine ⟨_, rfl, htcp, Or.inr (Or.inl hs), done', [], [], k', ?_⟩
      exact h.advance hcut (by simpa using hall) (fun p hp => by simp at hp) hstream
        fun _ => ⟨hhigh, hrest⟩
    | cons p rest =>
      by_cases hzero : k' = 0
      · -- nothing of the next package was written
        subst hzero
        rw [if_neg (by simp [listUncomplete_nodes hcut])]
        refine ⟨_, rfl, htcp, Or.inr (Or.inl hs), done', [], p :: rest, 0, ?_⟩
        exact h.advance rfl (by simpa using hall) hmem hstream fun _ => ⟨hhigh, hrest⟩
      · -- a part of the next package was written, and it is raised
        rw [if_pos ((listUncomplete_nodes hcut).mpr hzero), Socket.raiseUncomplete, hrest, nodes]
        simp only
        rw [if_neg (not_not_intro (show (s.sendList .low _).high = [] from hhigh))]
        refine ⟨_, rfl, htcp, Or.inr (Or.inl hs), done', [p], rest, k', ?_⟩
        exact h.advance hcut (by simpa using hall) (fun q hq => hmem q (mem_cons_of_mem _ hq))
          hstream fun _ => ⟨rfl, nodes_zero.symm⟩
  · rw [if_neg hlow, if_neg (by simp [hs])]
    exact ⟨_, rfl, htcp, Or.inr (Or.inl hs), done, [], low, k,
      h.advance h.cut rfl (fun _ hp => hp) h.stream h.lists⟩

/-- **A write event.** -/
theorem Arranged.sendBuffer (h : Arranged accepted s done high low k) (htcp : s.protocol = .tcp)
    (hs : s.type = .connected) (results : List WriteResult) :
    ∃ out, s.sendBuffer results = .ok out ∧ Ordered accepted out.socket := by
  have hopen : s.type ≠ .invalid := by simp [hs]
  have hcomplete : ¬listUncomplete s.low = true := by
    rw [(h.lists hopen).2, listUncomplete_nodes (partial_zero low)]
    exact fun h => h rfl
  obtain ⟨done₁, high₁, k₁, h₁⟩ := h.sendHigh hopen results
  rw [Socket.sendBuffer, if_neg hcomplete]
  simp only [drain_of_tcp htcp]
  by_cases hfailed : (drainTcp s.high results).failed = true
  · -- a write fails
    rw [if_pos hfailed]
    obtain ⟨out, hout, -, hordered⟩ := h₁.forceClose htcp (Or.inr hs) .close
    exact ⟨out, hout, hordered⟩
  rw [if_neg hfailed]
  by_cases hempty : (s.sendList .high (drainTcp s.high results)).high = []
  · rw [if_pos hempty]
    obtain rfl : high₁ = [] := nodes_eq_nil_iff.mp ((h₁.lists hopen).1.symm.trans hempty)
    exact h₁.sendBufferLow htcp hs hempty _
  · rw [if_neg hempty]
    exact ⟨_, rfl, htcp, Or.inr (Or.inl hs), done₁, high₁, low, k₁, h₁⟩

theorem filter_insert {p : Package} (hp : p.priority = .high) (hlow : ∀ q ∈ low, q.priority = .low)
    (pr : Priority) : (done ++ (high ++ [p]) ++ low).filter (fun q => q.priority = pr) =
      (done ++ high ++ low).filter (fun q => q.priority = pr) ++
        [p].filter fun q => q.priority = pr := by
  cases pr with
  | high =>
    have hnone : low.filter (fun q => q.priority = .high) = [] :=
      filter_eq_nil_iff.mpr fun q hq => by simp [hlow q hq]
    simp [filter_append, hp, hnone]
  | low => simp [filter_append, hp]

theorem Arranged.append (h : Arranged accepted s done high low k) (hs : s.type ≠ .invalid)
    (p : Package) : ∃ high' low', Arranged (accepted ++ [p])
      (s.append p.priority (p.object.node 0 [])) done high' low' k := by
  obtain ⟨hhigh, hlow⟩ := h.lists hs
  rcases hp : p.priority with _ | _
  · have hnodes : s.high ++ [p.object.node 0 []] = nodes (high ++ [p]) k := by
      rw [hhigh]
      cases high with
      | nil =>
        obtain rfl : k = 0 := h.cut
        rfl
      | cons q high => exact (nodes_concat (cons_ne_nil q high) p).symm
    refine ⟨high ++ [p], low, ?_, h.low_priority, fun pr => ?_, ?_, fun _ => ⟨hnodes, hlow⟩⟩
    · cases high with
      | nil => exact Or.inl h.cut
      | cons q high => exact h.cut
    · rw [filter_insert hp h.low_priority, h.order, filter_append]
    · change s.stream = _
      rw [h.stream]
      cases high with
      | nil =>
        obtain rfl : k = 0 := h.cut
        simp [written]
      | cons q high => rfl
  · have hnodes : s.low ++ [p.object.node 0 []] = nodes (low ++ [p]) 0 := by
      rw [hlow, nodes_zero, nodes_zero, map_append, map_singleton]
    refine ⟨high, low ++ [p], h.cut, fun q hq => ?_, fun pr => ?_, h.stream,
      fun _ => ⟨hhigh, hnodes⟩⟩
    · rcases mem_append.mp hq with hq | hq
      · exact h.low_priority q hq
      · rwa [mem_singleton.mp hq]
    · rw [← append_assoc, filter_append, h.order, filter_append]

/-- A package is written directly, and the rest of it is queued with high priority. -/
theorem Arranged.writeTcp (h : Arranged accepted s done high low k) (hs : s.type ≠ .invalid)
    (hempty : s.high = [] ∧ s.low = []) (p : Package) (n : ℕ) : ∃ done' high' k',
      Arranged (accepted ++ [p]) (s.writeTcp p.object n) done' high' [] k' := by
  obtain ⟨hhigh, hlow⟩ := h.lists hs
  obtain rfl : high = [] := nodes_eq_nil_iff.mp (hhigh.symm.trans hempty.1)
  obtain rfl : low = [] := nodes_eq_nil_iff.mp (hlow.symm.trans hempty.2)
  have horder : ∀ pr, (done ++ [p]).filter (fun q => q.priority = pr) =
      (accepted ++ [p]).filter fun q => q.priority = pr := by
    intro pr
    rw [filter_append, filter_append, ← h.order pr, append_nil, append_nil]
  have hstream : s.stream = contents done := by rw [h.stream, written, append_nil]
  rw [Socket.writeTcp]
  by_cases hall : p.object.bytes.length ≤ n
  · rw [if_pos hall]
    refine ⟨done ++ [p], [], 0, rfl, fun q hq => by simp at hq, fun pr => ?_, ?_, fun _ => hempty⟩
    · simpa using horder pr
    · change s.stream ++ p.bytes.take n = _
      have hbytes : p.bytes.take n = p.bytes := take_of_length_le hall
      rw [hstream, hbytes, contents_append]
      simp [contents, written]
  · rw [if_neg hall]
    refine ⟨done, [p], n, Or.inr (Nat.not_le.mp hall), fun q hq => by simp at hq, fun pr => ?_, ?_,
      fun _ => ⟨?_, hempty.2⟩⟩
    · simpa using horder pr
    · change s.stream ++ p.bytes.take n = _
      rw [hstream]
      rfl
    · change s.high ++ _ = _
      rw [hempty.1]
      rfl

/-- What `send_socket` does with a package for a socket that is connected and has nothing queued. -/
theorem sendSocket_direct (htcp : s.protocol = .tcp) (hs : s.type = .connected)
    (hempty : s.sendBufferEmpty = true) (p : Package) (results : List WriteResult) :
    (∃ n, s.sendSocket s.id p.object p.priority none results =
      .ok (s.writeTcp p.object n).quiet) ∨
    ∃ out, s.forceClose .close = .ok out ∧ s.sendSocket s.id p.object p.priority none results =
      .ok { out with socket := out.socket.drop p.object } := by
  unfold Socket.sendSocket
  rw [if_neg (by simp [hs]), if_neg (by simp [hs]), if_pos ⟨hempty, hs⟩, htcp]
  obtain ⟨out, hout, -⟩ := forceClose_eq (Or.inr hs) .close
  match results with
  | [] => exact Or.inl ⟨0, rfl⟩
  | .wrote n :: _ => exact Or.inl ⟨n, rfl⟩
  | .eagain :: _ => exact Or.inl ⟨0, rfl⟩
  | .eintr :: _ => exact Or.inl ⟨0, rfl⟩
  | .error :: _ => exact Or.inr ⟨out, hout, by simp only [hout]⟩

theorem sendSocket_queued (htcp : s.protocol = .tcp)
    (hs : s.type = .connecting ∨ s.type = .connected ∧ s.sendBufferEmpty = false) (p : Package)
    (results : List WriteResult) : s.sendSocket s.id p.object p.priority none results =
      .ok (s.append p.priority (p.object.node 0 [])).quiet := by
  unfold Socket.sendSocket
  rcases hs with hs | ⟨hs, hempty⟩
  · rw [if_neg (by simp [hs]), if_neg (by simp [hs]), if_neg (by simp [hs]), htcp]
  · rw [if_neg (by simp [hs]), if_neg (by simp [hs]), if_neg (by simp [hempty]), htcp]

theorem append_type (pr : Priority) (wb : WriteBuffer) :
    (s.append pr wb).type = s.type ∧ (s.append pr wb).protocol = s.protocol := by
  cases pr <;> exact ⟨rfl, rfl⟩

theorem writeTcp_type (so : SendObject) (n : ℕ) :
    (s.writeTcp so n).type = s.type ∧ (s.writeTcp so n).protocol = s.protocol := by
  rw [Socket.writeTcp]
  split_ifs <;> exact ⟨rfl, rfl⟩

/-- **A command for a package.** -/
theorem Ordered.send (h : Ordered accepted s) (p : Package) (results : List WriteResult) :
    ∃ st, StreamState.step ⟨s, accepted⟩ (.send p results) = .ok st ∧
      Ordered st.accepted st.socket := by
  obtain ⟨htcp, htype, done, high, low, k, harr⟩ := h
  rw [StreamState.step]
  have hqueued (hs : s.type = .connecting ∨ s.type = .connected)
      (heq : s.sendSocket s.id p.object p.priority none results =
        .ok (s.append p.priority (p.object.node 0 [])).quiet) :
      ∃ st, (match s.sendSocket s.id p.object p.priority none results with
        | .ok out => (.ok {
            socket := out.socket
            accepted := if out.socket.type = SocketType.invalid then accepted
              else accepted ++ [p] } : Except Fault StreamState)
        | .error e => .error e) = .ok st ∧ Ordered st.accepted st.socket := by
    have hopen : s.type ≠ .invalid := by rcases hs with hs | hs <;> simp [hs]
    obtain ⟨hsame, hsame'⟩ := append_type (s := s) p.priority (p.object.node 0 [])
    obtain ⟨high', low', harr'⟩ := harr.append hopen p
    rw [heq]
    refine ⟨_, rfl, hsame'.trans htcp, ?_, done, high', low', k, ?_⟩
    · rcases hs with hs | hs
      · exact Or.inl (hsame.trans hs)
      · exact Or.inr (Or.inl (hsame.trans hs))
    · have hne : (s.append p.priority (p.object.node 0 [])).type ≠ .invalid := by rwa [hsame]
      change Arranged (if (s.append p.priority (p.object.node 0 [])).type = SocketType.invalid
        then _ else _) _ _ _ _ _
      rwa [if_neg hne]
  rcases htype with hs | hs | hs
  · exact hqueued (Or.inl hs) (sendSocket_queued htcp (Or.inl hs) p results)
  · have hopen : s.type ≠ .invalid := by simp [hs]
    rcases hempty : s.sendBufferEmpty with _ | _
    · exact hqueued (Or.inr hs) (sendSocket_queued htcp (Or.inr ⟨hs, hempty⟩) p results)
    have hlists : s.high = [] ∧ s.low = [] := by simpa [Socket.sendBufferEmpty] using hempty
    rcases sendSocket_direct htcp hs hempty p results with ⟨n, heq⟩ | ⟨out, hout, heq⟩
    · -- the package is written directly
      obtain ⟨hsame, hsame'⟩ := writeTcp_type (s := s) p.object n
      obtain ⟨done', high', k', harr'⟩ := harr.writeTcp hopen hlists p n
      rw [heq]
      refine ⟨_, rfl, hsame'.trans htcp, Or.inr (Or.inl (hsame.trans hs)), done', high', [], k', ?_⟩
      have hne : (s.writeTcp p.object n).type ≠ .invalid := by rwa [hsame]
      change Arranged (if (s.writeTcp p.object n).type = SocketType.invalid then _ else _) _ _ _ _ _
      rwa [if_neg hne]
    · -- the write fails
      obtain ⟨out', hout', hinvalid, hordered⟩ := harr.forceClose htcp (Or.inr hs) .close
      obtain rfl : out = out' := Except.ok.inj (hout.symm.trans hout')
      rw [heq]
      refine ⟨_, rfl, ?_⟩
      have hdrop : (out.socket.drop p.object).type = .invalid := hinvalid
      simp only [if_pos hdrop]
      obtain ⟨htcp', htype', done', high', low', k', harr'⟩ := hordered
      exact ⟨htcp', htype', done', high', low', k', { harr' with }⟩
  · -- the socket is closed
    have heq :
        s.sendSocket s.id p.object p.priority none results = .ok (s.drop p.object).quiet := by
      unfold Socket.sendSocket
      rw [if_pos (Or.inl hs)]
    rw [heq]
    refine ⟨_, rfl, ?_⟩
    have hdrop : (s.drop p.object).quiet.socket.type = .invalid := hs
    simp only [if_pos hdrop]
    exact ⟨htcp, Or.inr (Or.inr hs), done, high, low, k, { harr with }⟩

/-- Only the lists, the stream, the type and the protocol matter. -/
theorem Arranged.of_eq {s' : Socket} (h : Arranged accepted s done high low k)
    (hs : s.type ≠ .invalid) (hhigh : s'.high = s.high) (hlow : s'.low = s.low)
    (hstream : s'.stream = s.stream) : Arranged accepted s' done high low k :=
  h.advance h.cut rfl (fun _ hp => hp) (hstream.trans h.stream) fun _ =>
    ⟨hhigh.trans (h.lists hs).1, hlow.trans (h.lists hs).2⟩

theorem Arranged.reportConnect (h : Arranged accepted s done high low k) (htcp : s.protocol = .tcp)
    (hs : s.type = .connecting) (connected : Bool) :
    ∃ out, s.reportConnect connected = .ok out ∧ Ordered accepted out.socket := by
  have hopen : s.type ≠ .invalid := by simp [hs]
  cases connected with
  | false =>
    obtain ⟨out, hout, -, hordered⟩ := h.forceClose htcp (Or.inl hs) .error
    exact ⟨out, hout, hordered⟩
  | true =>
    refine ⟨_, rfl, ?_, ?_, done, high, low, k, ?_⟩
    · simp only
      split_ifs <;> exact htcp
    · refine Or.inr (Or.inl ?_)
      simp only
      split_ifs <;> rfl
    · simp only
      split_ifs <;> exact h.of_eq hopen rfl rfl rfl

theorem Arranged.forwardMessageTcp (h : Arranged accepted s done high low k)
    (htcp : s.protocol = .tcp) (hs : s.type = .connected) (result : ReadResult) :
    ∃ out, s.forwardMessageTcp result = .ok out ∧ Ordered accepted out.socket := by
  have hopen : s.type ≠ .invalid := by simp [hs]
  have hquiet : Ordered accepted s := ⟨htcp, Or.inr (Or.inl hs), done, high, low, k, h⟩
  match result with
  | .eintr => exact ⟨_, rfl, hquiet⟩
  | .eagain => exact ⟨_, rfl, hquiet⟩
  | .error =>
    obtain ⟨out, hout, -, hordered⟩ := h.forceClose htcp (Or.inr hs) .error
    exact ⟨out, hout, hordered⟩
  | .got 0 =>
    obtain ⟨out, hout, -, hordered⟩ := h.forceClose htcp (Or.inr hs) .close
    exact ⟨out, hout, hordered⟩
  | .got (n + 1) =>
    simp only [Socket.forwardMessageTcp]
    rw [if_neg (by simp [hs])]
    exact ⟨_, rfl, htcp, Or.inr (Or.inl hs), done, high, low, k, h.of_eq hopen rfl rfl rfl⟩

/-- **An entry of the poller.** -/
theorem Ordered.event (h : Ordered accepted s) (read write : Bool) (κ : Kernel) :
    ∃ out, s.dispatch read write κ = .ok out ∧ Ordered accepted out.socket := by
  have hquiet : ∃ out, (.ok s.quiet : Except Fault Outcome) = .ok out ∧
      Ordered accepted out.socket := ⟨_, rfl, h⟩
  obtain ⟨htcp, htype, done, high, low, k, harr⟩ := h
  rw [Socket.dispatch]
  rcases htype with hs | hs | hs
  · rw [hs]
    exact harr.reportConnect htcp hs κ.connected
  · rw [hs]
    simp only [htcp]
    split_ifs with hread hwrite
    · exact harr.forwardMessageTcp htcp hs κ.read
    · exact harr.sendBuffer htcp hs κ.writes
    · exact hquiet
  · rw [hs]
    exact hquiet

end Step

/-- What holds of the packages that were accepted on a socket and of the bytes written to its
descriptor: some packages are done, the others are queued; the bytes written are those of the
packages that are done and of the written part of the first one queued. -/
def StreamState.Whole (st : StreamState) : Prop :=
  ∃ done high low k, (done ++ high ++ low).Perm st.accepted ∧
    (∀ pr, (done ++ high ++ low).filter (fun p => p.priority = pr) =
      st.accepted.filter fun p => p.priority = pr) ∧
    st.socket.stream = contents done ++ written high k ∧ Partial high k ∧
    (st.socket.type ≠ .invalid → st.socket.high = nodes high k ∧ st.socket.low = nodes low 0)

theorem perm_of_filter {ps qs : List Package} (h : ∀ pr,
    ps.filter (fun p => p.priority = pr) = qs.filter fun p => p.priority = pr) : ps.Perm qs := by
  have hnot (l : List Package) : l.filter (fun p => !decide (p.priority = .high)) =
      l.filter fun p => p.priority = .low := by
    refine filter_congr fun p _ => ?_
    cases p.priority <;> rfl
  have hsplit (l : List Package) : (l.filter (fun p => p.priority = .high) ++
      l.filter fun p => p.priority = .low).Perm l := by
    rw [← hnot]
    exact filter_append_perm (fun p : Package => p.priority = .high) l
  refine (hsplit ps).symm.trans ?_
  rw [h, h]
  exact hsplit qs

/-- **Packages stay whole and in order.** A TCP socket that starts to connect, or is connected, with
nothing queued gets any packages and any entries of the poller, and the kernel answers as it likes.
No assertion fails, and in every state the accepted packages, each of them once and those of one
priority in the order in which they were sent, are some that are done and then exactly those of the
two lists, and what was written is the bytes of those done and a part of the first one queued. -/
theorem stream_ordered {s : Socket} (htcp : s.protocol = .tcp)
    (htype : s.type = .connecting ∨ s.type = .connected) (hempty : s.high = [] ∧ s.low = [])
    (hstream : s.stream = []) (ops : List StreamOp) :
    ∃ st, Transition.exec StreamState.step ⟨s, []⟩ ops = .ok st ∧ st.Whole := by
  have hstart : Ordered [] s := by
    refine ⟨htcp, htype.imp_right Or.inl, [], [], [], 0, rfl, fun p hp => ?_, fun _ => rfl, hstream,
      fun _ => hempty⟩
    simp at hp
  have hstep (st : StreamState) (op : StreamOp) (h : Ordered st.accepted st.socket) :
      ∃ st', st.step op = .ok st' ∧ Ordered st'.accepted st'.socket := by
    cases op with
    | send p results => exact h.send p results
    | event read write κ =>
      obtain ⟨out, hout, hordered⟩ := h.event read write κ
      exact ⟨_, by rw [StreamState.step, hout], hordered⟩
  have hrun : ∃ st, Transition.exec StreamState.step ⟨s, []⟩ ops = .ok st ∧
      Ordered st.accepted st.socket := Transition.exec_invariant hstep hstart ops
  obtain ⟨st, hst, -, -, done, high, low, k, harr⟩ := hrun
  exact ⟨st, hst, done, high, low, k, perm_of_filter harr.order, harr.order, harr.stream, harr.cut,
    harr.lists⟩

/-- A socket that is connected. -/
def freshSocket : Socket where
  opaqueId := 1
  high := []
  low := []
  wbSize := 0
  fd := some (.own 0)
  id := 1
  protocol := .tcp
  type := .connected
  p := .size minReadBuffer
  registered := true
  writing := false
  stream := []
  datagrams := []
  freed := []

/-- A package of low priority is written in part, one of high priority waits behind it, and then the
kernel takes some bytes of both. -/
theorem stream_ordered_mixed :
    ∃ st, Transition.exec StreamState.step ⟨freshSocket, []⟩
        [.send ⟨.low, 100, [1, 2, 3]⟩ [.wrote 1], .send ⟨.low, 101, [4]⟩ [],
          .send ⟨.high, 102, [5, 6]⟩ [],
          .event false true ⟨true, .failed, true, true, .eagain, .eagain,
          [.eintr, .wrote 2, .wrote 1]⟩] =
        .ok st ∧ st.Whole ∧ st.socket.stream = [1, 2, 3, 5] := by
  obtain ⟨st, hst, hwhole⟩ := stream_ordered (s := freshSocket) rfl (Or.inr rfl) ⟨rfl, rfl⟩ rfl
    [.send ⟨.low, 100, [1, 2, 3]⟩ [.wrote 1], .send ⟨.low, 101, [4]⟩ [],
      .send ⟨.high, 102, [5, 6]⟩ [],
      .event false true ⟨true, .failed, true, true, .eagain, .eagain, [.eintr, .wrote 2, .wrote 1]⟩]
  refine ⟨st, hst, hwhole, ?_⟩
  cases hst
  rfl

end Mtask.SocketServer
