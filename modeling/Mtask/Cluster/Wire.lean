import Mtask.Cluster.LargeRequests
import Mtask.Netpack.Reassembly

/-!
# Requests on the wire

`send_request` gives every request of a node the next session. `channel:request` writes a request of
one package with `socket.write` and the packages of any other with `socket.lwrite`, so that they
overtake each other, and the connection cuts the stream anywhere. At the other end the gate puts the
packages together and sends each of them to the service.
-/

namespace Mtask.Cluster

open List
open Function (update update_of_ne update_self)

/-- The requests of a node with their sessions; `node_session` has the session that follows. -/
def sendRequests (session : ℕ) : List (Address × Bytes) → Except Fault (List (ℕ × PackedRequest))
  | [] => .ok []
  | (addr, msg) :: requests =>
    match packrequest addr session msg with
    | .error e => .error e
    | .ok p => (sendRequests p.nextSession.toNat requests).map ((session, p) :: ·)

/-- The requests as they should be handed on. -/
def calls (fd session : ℕ) : List (Address × Bytes) → List Call
  | [] => []
  | (addr, msg) :: requests => ⟨fd, session, some addr, msg⟩ :: calls fd (session + 1) requests

/-- The packages on a connection, each with the session of its request: the packages of a request
are in their order. -/
def Interleaved (sent : List (ℕ × PackedRequest)) (wire : List (ℕ × Bytes)) : Prop :=
  ∀ s, (wire.filter (·.1 = s)).map Prod.snd = (sent.filter (·.1 = s)).flatMap (·.2.packages)

namespace Clusterd

/-- The packages arrive one after the other. -/
def receive (lib : Packing) (fd : ℕ) (c : Clusterd) (packages : List Bytes) :
    Except Fault Clusterd :=
  packages.foldlM (fun c package => c.socketData lib fd package) c

/-- `handler.message` of the gate sends what it has put together. -/
def arrive (lib : Packing) (c : Clusterd) (out : List Netpack.Pack) : Except Fault Clusterd :=
  out.foldlM (fun c np =>
    c.socketData lib np.id.toNatClampNeg (np.buffer.bytes.take np.size)) c

/-- The entry of `large_request` when these packages of a request have arrived. -/
def begun (addr : Address) (l : List UnpackedRequest) : Option LargeRequest :=
  if l = [] then none else some ⟨some addr, l.map UnpackedRequest.data⟩

variable {lib : Packing} {fd session : ℕ} {c : Clusterd} {addr : Address} {msg package : Bytes}
  {x : UnpackedRequest} {l₁ l₂ : List UnpackedRequest}

theorem socketData_progress (hx : unpackrequest package = .ok x)
    (hcarries : RequestCarries addr session msg (l₁ ++ x :: l₂)) (hne : l₂ ≠ [])
    (hlarge : c.largeRequest session = begun addr l₁) :
    c.socketData lib fd package = .ok { c with
      largeRequest := update c.largeRequest session (begun addr (l₁ ++ [x])) } := by
  obtain ⟨rfl, hpad, haddr, -⟩ := hcarries.at
  rw [socketData_padding hx (hpad.mpr hne), hlarge]
  by_cases hnil : l₁ = []
  · subst hnil
    simp [begun, haddr rfl]
  · simp [begun, hnil]

theorem socketData_end (hx : unpackrequest package = .ok x)
    (hcarries : RequestCarries addr session msg (l₁ ++ [x]))
    (hlarge : c.largeRequest session = begun addr l₁) :
    ∃ c', c.socketData lib fd package = .ok c' ∧
      c'.largeRequest = update c.largeRequest session none ∧
      c'.served = c.served ++ [⟨fd, session, some addr, msg⟩] := by
  obtain ⟨rfl, hpad, haddr, hdata, hconcat⟩ := hcarries.at
  have hlast : ¬ x.padding = true := by simp [hpad]
  by_cases hnil : l₁ = []
  · subst hnil
    refine ⟨_, socketData_single hx hlast hlarge (hdata rfl rfl), ?_, ?_⟩
    · rw [largeRequest_serve, Function.update_eq_self_iff.mpr hlarge.symm]
    · rw [served_serve, haddr rfl]
  · rw [begun, if_neg hnil] at hlarge
    exact ⟨_, socketData_last hx hlast hlarge (hconcat hnil rfl), largeRequest_serve _,
      served_serve _⟩

/-- What of a session has not arrived. -/
def restOf (wire : List (ℕ × Bytes)) (s : ℕ) : List (Except Fault UnpackedRequest) :=
  (wire.filter (·.1 = s)).map fun e => unpackrequest (strip e.2)

/-- In a session nothing is to come, or the rest of one request. -/
def Owes (fd s : ℕ) (entry : Option LargeRequest) (rest : List (Except Fault UnpackedRequest))
    (todo : List Call) : Prop :=
  (rest = [] ∧ entry = none ∧ todo = []) ∨
    ∃ addr msg l₁ l₂, l₂ ≠ [] ∧ rest = l₂.map .ok ∧ RequestCarries addr s msg (l₁ ++ l₂) ∧
      entry = begun addr l₁ ∧ todo = [⟨fd, s, some addr, msg⟩]

/-- All sessions. -/
def Owed (fd : ℕ) (c : Clusterd) (wire : List (ℕ × Bytes)) (todo : List Call) : Prop :=
  ∀ s, Owes fd s (c.largeRequest s) (restOf wire s) (todo.filter (·.session = s))

/-- The next package arrives in one session, and the others are left as they are. -/
theorem Owed.receive {wire : List (ℕ × Bytes)} {todo : List Call} (h : Owed fd c wire todo) :
    ∃ c' served, c.receive lib fd (wire.map fun e => strip e.2) = .ok c' ∧
      c'.largeRequest = (fun _ => none) ∧ c'.served = c.served ++ served ∧ served.Perm todo := by
  induction wire generalizing c todo with
  | nil =>
    have hleft (s : ℕ) : c.largeRequest s = none ∧ todo.filter (·.session = s) = [] := by
      rcases h s with ⟨-, h⟩ | ⟨addr, msg, l₁, l₂, hne, hrest, -⟩
      · exact h
      · exact absurd (map_eq_nil_iff.mp hrest.symm) hne
    have htodo : todo = [] := eq_nil_iff_forall_not_mem.mpr fun call hcall =>
      filter_eq_nil_iff.mp (hleft call.session).2 call hcall (by simp)
    exact ⟨c, [], rfl, funext fun s => (hleft s).1, (append_nil _).symm, by rw [htodo]⟩
  | cons e wire ih =>
    obtain ⟨s, q⟩ := e
    have hfirst : restOf ((s, q) :: wire) s = unpackrequest (strip q) :: restOf wire s := by
      simp [restOf]
    have hother {s' : ℕ} (hs : s' ≠ s) : restOf ((s, q) :: wire) s' = restOf wire s' := by
      simp [restOf, hs.symm]
    rcases hfirst ▸ h s with ⟨hnil, -⟩ | ⟨addr, msg, l₁, l₂, -, hrest, hcarries, hlarge, htodo⟩
    · cases hnil
    · obtain ⟨x, l₂, rfl, hx, hl⟩ := map_eq_cons_iff.mp hrest.symm
      by_cases hnil : l₂ = []
      · -- the request is complete
        subst hnil
        obtain ⟨c₁, hdata, hlarge₁, hserved₁⟩ :=
          @socketData_end lib fd _ _ _ _ _ _ _ hx.symm hcarries hlarge
        obtain ⟨c', served, hreceive, hnone, hserved, hperm⟩ :=
          @ih c₁ (todo.filter (·.session ≠ s)) fun s' => by
            rw [hlarge₁, filter_filter]
            by_cases hs : s' = s
            · subst hs
              exact .inl ⟨hl.symm, update_self .., by simp⟩
            · have hkeep : todo.filter (fun call => decide (call.session = s') &&
                  decide (call.session ≠ s)) = todo.filter (·.session = s') :=
                filter_congr fun call _ => by
                  by_cases hcall : call.session = s' <;> simp [hcall, hs]
              rw [hkeep, update_of_ne hs, ← hother hs]
              exact h s'
        refine ⟨c', ⟨fd, s, some addr, msg⟩ :: served, ?_, hnone, ?_, ?_⟩
        · rw [map_cons, Clusterd.receive, foldlM_cons, hdata]
          exact hreceive
        · rw [hserved, hserved₁, append_assoc, singleton_append]
        · have hsplit := filter_append_perm (·.session = s) todo
          rw [htodo] at hsplit
          refine (hperm.cons _).trans (.trans ?_ hsplit)
          simp
      · obtain ⟨c', served, hreceive, hrest⟩ :=
          @ih { c with largeRequest := update c.largeRequest s (begun addr (l₁ ++ [x])) } todo
            fun s' => by
            by_cases hs : s' = s
            · subst hs
              refine .inr ⟨addr, msg, l₁ ++ [x], l₂, hnil, hl.symm, ?_, update_self .., htodo⟩
              rwa [append_assoc, singleton_append]
            · dsimp only
              rw [update_of_ne hs, ← hother hs]
              exact h s'
        refine ⟨c', served, ?_, hrest⟩
        rw [map_cons, Clusterd.receive, foldlM_cons,
          socketData_progress hx.symm hcarries hnil hlarge]
        exact hreceive

end Clusterd

/-! ### The requests of a node -/

section Requests

variable {fd session : ℕ} {requests : List (Address × Bytes)}

theorem packrequest_nextSession {addr : Address} {msg : Bytes} {p : PackedRequest}
    (h : packrequest addr session msg = .ok p) (hs : session < 2 ^ 31) :
    p.nextSession = nextSession session := by
  rw [packrequest, int_natCast hs] at h
  split_ifs at h
  split at h
  · cases h
  · split_ifs at h
    · cases h
      rfl
    · split at h <;> cases h
      rfl

/-- The packages of a request, read back. -/
def Carries (s : ℕ) (p : PackedRequest) (addr : Address) (msg : Bytes) : Prop :=
  ∃ l, p.packages.map (fun q => unpackrequest (strip q)) = l.map .ok ∧
    RequestCarries addr s msg l

theorem sendRequests_eq (hvalid : ∀ r ∈ requests, r.1.Valid ∧ r.2.length < 2 ^ 31)
    (hpos : 0 < session) (hlast : session + requests.length < 2 ^ 31) :
    ∃ sent, sendRequests session requests = .ok sent ∧
      (∀ e ∈ sent, ∀ q ∈ e.2.packages, WellFramed q) ∧
      ∀ s, if session ≤ s ∧ s < session + requests.length then
        ∃ p addr msg, sent.filter (·.1 = s) = [(s, p)] ∧ Carries s p addr msg ∧
          (calls fd session requests).filter (·.session = s) = [⟨fd, s, some addr, msg⟩]
      else sent.filter (·.1 = s) = [] ∧
        (calls fd session requests).filter (·.session = s) = [] := by
  induction requests generalizing session with
  | nil => exact ⟨[], rfl, by simp, fun s => by simp [calls]⟩
  | cons r requests ih =>
    obtain ⟨addr, msg⟩ := r
    obtain ⟨haddr, hlen⟩ := hvalid (addr, msg) mem_cons_self
    rw [length_cons] at hlast
    obtain ⟨p, l, hpack, hframed, hunpack, hcarries, -⟩ :=
      request_round_trip haddr hpos (by omega) hlen
    obtain ⟨sent, hsend, hall, hsessions⟩ := @ih (session + 1)
      (fun r hr => hvalid r (mem_cons_of_mem _ hr)) (by omega) (by omega)
    have hnext : p.nextSession.toNat = session + 1 := by
      rw [packrequest_nextSession hpack (by omega), nextSession, ← Nat.cast_succ,
        int_natCast (by omega), if_neg (by omega), Int.toNat_natCast]
    refine ⟨(session, p) :: sent, by simp [sendRequests, hpack, hnext, hsend, Except.map],
      forall_mem_cons.mpr ⟨hframed, hall⟩, fun s => ?_⟩
    have hs := hsessions s
    rw [length_cons, calls]
    by_cases heq : s = session
    · subst heq
      rw [if_neg (by omega)] at hs
      rw [if_pos (by omega)]
      exact ⟨p, addr, msg, by simp [hs.1], ⟨l, hunpack, hcarries⟩, by simp [hs.2]⟩
    · rw [filter_cons_of_neg (by simpa using Ne.symm heq),
        filter_cons_of_neg (by simpa using Ne.symm heq)]
      convert hs using 1
      omega

end Requests

/-! ### Through the gate -/

theorem packages_flatten {wire : List Bytes} (h : ∀ q ∈ wire, WellFramed q) :
    Netpack.packages wire.flatten = wire.map strip := by
  induction wire with
  | nil => exact Netpack.packages_nil
  | cons q wire ih =>
    have hq := h q mem_cons_self
    obtain ⟨first, second, body, rfl⟩ : ∃ first second body, q = first :: second :: body := by
      rcases q with _ | ⟨first, _ | ⟨second, body⟩⟩
      · cases hq.header
      · exact absurd hq.header (by simp)
      · exact ⟨first, second, body, rfl⟩
    have hsize : Netpack.readSize first second = body.length :=
      (Netpack.readSize_eq first second).trans hq.length
    have hle : Netpack.readSize first second ≤ (body ++ wire.flatten).length := by
      rw [hsize, length_append]
      exact Nat.le_add_right _ _
    rw [flatten_cons, cons_append, cons_append, Netpack.packages_package hle, hsize,
      take_left, drop_left, ih fun q hq => h q (mem_cons_of_mem _ hq)]
    rfl

theorem arrive_eq {lib : Packing} {c : Clusterd} {out : List Netpack.Pack} {fd : Int32}
    {packages : List Bytes} (h : out.map Netpack.Pack.view = packages.map (Netpack.viewOf fd)) :
    c.arrive lib out = c.receive lib fd.toNatClampNeg packages := by
  induction out generalizing c packages with
  | nil =>
    obtain rfl := map_eq_nil_iff.mp h.symm
    rfl
  | cons np out ih =>
    obtain ⟨package, packages, rfl, hnp, htail⟩ := map_eq_cons_iff.mp h.symm
    obtain ⟨hid, hsize, hbytes⟩ : fd = np.id ∧ package.length = np.size ∧
      package = np.buffer.bytes := by simpa [Netpack.viewOf, Netpack.Pack.view] using hnp
    rw [Clusterd.arrive, Clusterd.receive, foldlM_cons, foldlM_cons, ← hid, ← hsize,
      ← hbytes, take_length]
    cases c.socketData lib fd.toNatClampNeg package with
    | error e => rfl
    | ok c' => exact ih htail.symm

/-- **Requests arrive as they were sent.** However the packages of different requests overtake each
other and however the connection cuts them, the service hands on every request of a node once, with
its address, its session and its message. -/
theorem requests_arrive (lib : Packing) (fd : Int32) {session : ℕ}
    {requests : List (Address × Bytes)}
    (hvalid : ∀ r ∈ requests, r.1.Valid ∧ r.2.length < 2 ^ 31) (hpos : 0 < session)
    (hlast : session + requests.length < 2 ^ 31) :
    ∃ sent, sendRequests session requests = .ok sent ∧
      ∀ (c : Clusterd) (wire : List (ℕ × Bytes)) (chunks : List (Int32 × Block)),
        c.largeRequest = (fun _ => none) → Interleaved sent wire →
        (∀ chunk ∈ chunks, chunk.1 = fd ∧ chunk.2.bytes ≠ []) →
        Netpack.stream fd chunks = (wire.map Prod.snd).flatten →
        ∃ out st c' served, Netpack.State.init.run chunks = .ok (out, st) ∧
          c.arrive lib out = .ok c' ∧ c'.largeRequest = (fun _ => none) ∧
          c'.served = c.served ++ served ∧
          served.Perm (calls fd.toNatClampNeg session requests) := by
  obtain ⟨sent, hsend, hframed, hsessions⟩ :=
    @sendRequests_eq fd.toNatClampNeg _ _ hvalid hpos hlast
  refine ⟨sent, hsend, fun c wire chunks hlarge hwire hchunks hstream => ?_⟩
  have howed : Clusterd.Owed fd.toNatClampNeg c wire (calls fd.toNatClampNeg session requests) := by
    intro s
    have hs := hsessions s
    have hrest : Clusterd.restOf wire s = ((sent.filter (·.1 = s)).flatMap (·.2.packages)).map
        fun q => unpackrequest (strip q) := by
      rw [← hwire, map_map]
      rfl
    rw [hrest, hlarge]
    split_ifs at hs
    · obtain ⟨p, addr, msg, hsent, ⟨l, hunpack, hcarries⟩, hcalls⟩ := hs
      refine .inr ⟨addr, msg, [], l, ?_, by simpa [hsent] using hunpack, hcarries, rfl, hcalls⟩
      rcases hcarries with ⟨-, rfl⟩ | ⟨⟨init, last, rfl⟩, -⟩ <;> simp
    · exact .inl ⟨by simp [hs.1], rfl, hs.2⟩
  have hall : ∀ q ∈ wire.map Prod.snd, WellFramed q := by
    intro q hq
    obtain ⟨⟨s, q⟩, he, rfl⟩ := mem_map.mp hq
    have hmem : q ∈ (wire.filter (·.1 = s)).map Prod.snd :=
      mem_map.mpr ⟨(s, q), mem_filter.mpr ⟨he, by simp⟩, rfl⟩
    rw [hwire s] at hmem
    obtain ⟨e, he, hq⟩ := mem_flatMap.mp hmem
    exact hframed e (mem_of_mem_filter he) q hq
  obtain ⟨out, st, hrun, -, hdelivered⟩ :=
    Netpack.run_init chunks fun chunk hc => (hchunks chunk hc).2
  have hout : out.map Netpack.Pack.view =
      (wire.map fun e => strip e.2).map (Netpack.viewOf fd) := by
    have hmap : (wire.map fun e => strip e.2) = (wire.map Prod.snd).map strip := by
      rw [map_map]
      rfl
    rw [hmap, ← packages_flatten hall, ← hstream, ← hdelivered fd]
    refine (filter_eq_self.mpr fun view hview => decide_eq_true ?_).symm
    -- nothing comes from another connection
    by_contra hid
    have hmem : view ∈ Netpack.delivered view.1 out := mem_filter.mpr ⟨hview, by simp⟩
    rw [hdelivered, Netpack.stream, filter_eq_nil_iff.mpr fun chunk hc => ?_] at hmem
    · simp [Netpack.packages_nil] at hmem
    · simpa [(hchunks chunk hc).1] using Ne.symm hid
  obtain ⟨c', served, hreceive, hrest⟩ := @Clusterd.Owed.receive lib _ c wire _ howed
  exact ⟨out, st, c', served, hrun, (arrive_eq hout).trans hreceive, hrest⟩

/-- Two requests on a connection that cuts the second one behind the first byte of its length. -/
theorem requests_arrive_cut : ∃ out st c' served,
    Netpack.State.init.run [(2, ⟨100, [0, 10, 0, 6, 0, 0, 0, 1, 0, 0, 0, 7, 0]⟩),
      (2, ⟨101, [10, 0, 5, 0, 0, 0, 2, 0, 0, 0, 8]⟩)] = .ok (out, st) ∧
    World.init.clusterd.arrive World.sampleLib out = .ok c' ∧ c'.served = served ∧
    served.Perm [⟨2, 1, some (.number 6), [7]⟩, ⟨2, 2, some (.number 5), [8]⟩] := by
  obtain ⟨sent, hsend, harrive⟩ := @requests_arrive World.sampleLib 2 1
    [(.number 6, [7]), (.number 5, [8])] (by decide) (by decide) (by decide)
  obtain rfl : sent = [(1, ⟨[0, 10, 0, 6, 0, 0, 0, 1, 0, 0, 0, 7], 2, none⟩),
      (2, ⟨[0, 10, 0, 5, 0, 0, 0, 2, 0, 0, 0, 8], 3, none⟩)] :=
    Except.ok.inj (hsend.symm.trans rfl)
  obtain ⟨out, st, c', served, hrun, hok, -, hserved⟩ := harrive World.init.clusterd
    [(1, [0, 10, 0, 6, 0, 0, 0, 1, 0, 0, 0, 7]), (2, [0, 10, 0, 5, 0, 0, 0, 2, 0, 0, 0, 8])]
    [(2, ⟨100, [0, 10, 0, 6, 0, 0, 0, 1, 0, 0, 0, 7, 0]⟩),
      (2, ⟨101, [10, 0, 5, 0, 0, 0, 2, 0, 0, 0, 8]⟩)] rfl (fun s => by
      by_cases h₁ : 1 = s <;> by_cases h₂ : 2 = s <;> simp [h₁, h₂, PackedRequest.packages])
    (by decide) rfl
  exact ⟨out, st, c', served, hrun, hok, hserved⟩

end Mtask.Cluster
