import Mathlib.Data.List.Perm.Subperm
import Mtask.Lib.FirstInfix
import Mtask.LuaSocket.Buffer

/-!
# The chunks of a buffer

The nodes of a buffer hold the chunks that were pushed into it, and the bytes that are not read yet
are those of the chunks behind the offset. Here the functions of the library are computed on the
chunks.
-/

namespace Mtask.LuaSocket

open GateService (toInt)
open List
open Function (update update_of_ne update_self)
open GateService.DataBuffer (toInt_of_lt)
open IntrusiveQueue

/-- A chunk with its node and its message. -/
structure Chunk where
  node : ℕ
  msg : ℕ
  data : List UInt8

/-- The bytes of some chunks. -/
def bytes (list : List Chunk) : List UInt8 :=
  list.flatMap Chunk.data

@[simp] theorem bytes_nil : bytes [] = [] := rfl

@[simp] theorem bytes_cons (x : Chunk) (list : List Chunk) :
    bytes (x :: list) = x.data ++ bytes list :=
  flatMap_cons

/-- The nodes from a pointer on hold the chunks. -/
structure Holds (pool : Pool) (p : Option ℕ) (list : List Chunk) : Prop where
  seg : Seg pool.nextOf p (list.map Chunk.node) none
  msg_eq : ∀ x ∈ list, (pool.node x.node).msg = some x.msg
  sz_eq : ∀ x ∈ list, (pool.node x.node).sz = x.data.length
  block_eq : ∀ x ∈ list, pool.block x.msg = some x.data
  nonempty : ∀ x ∈ list, x.data ≠ []
  length_lt : ∀ x ∈ list, x.data.length < 2 ^ 31

section Holds

variable {pool : Pool} {p : Option ℕ} {x : Chunk} {list : List Chunk} {sep : List UInt8}

theorem Holds.head_eq (h : Holds pool p (x :: list)) : p = some x.node :=
  (Seg.cons_iff.mp h.seg).1

theorem Holds.rest (h : Holds pool p (x :: list)) : Holds pool (pool.nextOf x.node) list where
  seg := (Seg.cons_iff.mp h.seg).2
  msg_eq y hy := h.msg_eq y (mem_cons_of_mem x hy)
  sz_eq y hy := h.sz_eq y (mem_cons_of_mem x hy)
  block_eq y hy := h.block_eq y (mem_cons_of_mem x hy)
  nonempty y hy := h.nonempty y (mem_cons_of_mem x hy)
  length_lt y hy := h.length_lt y (mem_cons_of_mem x hy)

theorem Holds.nil_head (h : Holds pool p []) : p = none :=
  Seg.nil_iff.mp h.seg

variable {start : ℕ}

theorem Holds.toInt_left (h : Holds pool p (x :: list)) (hstart : start ≤ x.data.length) :
    toInt ((pool.node x.node).sz - start) = ((x.data.length - start : ℕ) : ℤ) := by
  have hlt := h.length_lt x mem_cons_self
  rw [h.sz_eq x mem_cons_self, ← Int.ofNat_sub hstart]
  exact toInt_of_lt (by omega)

theorem Holds.copy_eq (h : Holds pool p (x :: list)) {sz : ℕ} (hle : start + sz ≤ x.data.length) :
    pool.copy x.node start sz = .ok ((x.data.drop start).take sz) := by
  rw [Pool.copy, h.msg_eq x mem_cons_self]
  simp only [h.block_eq x mem_cons_self]
  rw [if_pos ⟨by omega, by omega, by omega⟩]
  simp

theorem Holds.sameBytes_eq (h : Holds pool p (x :: list)) {sz : ℕ}
    (hle : start + sz ≤ x.data.length) (hsep : sz ≤ sep.length) :
    pool.sameBytes x.node start sep sz =
      .ok (decide ((x.data.drop start).take sz = sep.take sz)) := by
  rw [Pool.sameBytes, h.copy_eq hle]
  simp only [bind, Except.bind]
  rw [if_pos (Int.ofNat_le.mpr hsep)]
  rfl

/-- A separator that is longer than a first part begins with that part. -/
theorem prefix_append_iff {a : List UInt8} (b : List UInt8) (hle : a.length ≤ sep.length) :
    sep <+: a ++ b ↔ a = sep.take a.length ∧ sep.drop a.length <+: b := by
  constructor
  · rintro ⟨t, ht⟩
    rw [← take_append_drop a.length sep, append_assoc] at ht
    have hlen : (sep.take a.length).length = a.length := length_take_of_le hle
    obtain ⟨ha, hb⟩ := append_inj ht hlen
    exact ⟨ha.symm, t, hb⟩
  · rintro ⟨ha, t, ht⟩
    refine ⟨t, ?_⟩
    rw [← take_append_drop a.length sep, append_assoc, ht, ← ha]

/-- **`check_sep` compares the separator with the bytes**, node by node. -/
theorem Holds.checkSep (h : Holds pool p list) (fuel start : ℕ)
    (hstart : ∀ x rest, list = x :: rest → start ≤ x.data.length)
    (hne : sep ≠ []) (hlt : sep.length < 2 ^ 31)
    (hle : sep.length ≤ ((bytes list).drop start).length) (hfuel : list.length < fuel) :
    SocketBuffer.checkSep fuel pool p start sep sep.length =
      .ok (decide (sep <+: (bytes list).drop start)) := by
  induction list generalizing fuel p start sep with
  | nil =>
    rw [bytes_nil, drop_nil, length_nil] at hle
    exact absurd (length_eq_zero_iff.mp (Nat.le_zero.mp hle)) hne
  | cons x list ih =>
    obtain ⟨fuel, rfl⟩ : ∃ n, fuel = n + 1 := ⟨fuel - 1, by omega⟩
    have hx := hstart x list rfl
    have hdrop : (bytes (x :: list)).drop start = x.data.drop start ++ bytes list := by
      rw [bytes_cons, drop_append_of_le_length hx]
    have hlen : (x.data.drop start).length = x.data.length - start := length_drop
    rw [hdrop, length_append, hlen] at hle
    rw [hdrop, h.head_eq, SocketBuffer.checkSep]
    simp only [h.toInt_left hx]
    by_cases hshort : sep.length ≤ x.data.length - start
    · -- the node has all bytes of the separator
      rw [if_pos (Int.ofNat_le.mpr hshort), h.sameBytes_eq (by omega) (Nat.le_refl _)]
      refine congrArg Except.ok (decide_eq_decide.mpr ?_)
      rw [take_of_length_le (Nat.le_refl _), prefix_iff_eq_take,
        take_append_of_le_length (by omega), eq_comm]
    · rw [if_neg (fun hcon => hshort (Int.ofNat_le.mp hcon)), if_neg (by omega)]
      have hiff := prefix_append_iff (bytes list)
        (show (x.data.drop start).length ≤ sep.length by omega)
      simp only [hiff, hlen]
      have hsep' : toInt ((sep.length : ℤ) - (x.data.length - start : ℕ)) =
          ((sep.drop (x.data.length - start)).length : ℤ) := by
        rw [length_drop, ← Int.ofNat_sub (by omega)]
        exact toInt_of_lt (by omega)
      have hne' : sep.drop (x.data.length - start) ≠ [] := fun hnil => by
        have := congrArg List.length hnil
        rw [length_drop, length_nil] at this
        omega
      have hrest := ih h.rest fuel 0 (fun _ _ _ => Nat.zero_le _) hne'
        (by rw [length_drop]; omega)
        (by rw [length_drop, drop_zero]; omega)
        (by rw [length_cons] at hfuel; omega)
      rw [drop_zero] at hrest
      rw [hsep', Int.toNat_natCast]
      by_cases hzero : x.data.length - start = 0
      · -- nothing is left of the node
        have hnil : x.data.drop start = [] := drop_of_length_le (by omega)
        rw [hzero] at hrest ⊢
        rw [if_neg (by decide), hnil, take_zero]
        simp only [pure, Except.pure, bind, Except.bind, if_true, true_and]
        exact hrest
      · rw [if_pos (by omega), h.sameBytes_eq (by omega) (by omega)]
        rw [take_of_length_le (by omega)]
        simp only [bind, Except.bind]
        by_cases hsame : x.data.drop start = sep.take (x.data.length - start)
        · simp only [hsame, decide_true, if_true, true_and]
          exact hrest
        · simp only [hsame, decide_false, false_and]
          rfl

/-- **`lreadline` finds the first place of the separator.** -/
theorem Holds.findSep (h : Holds pool (some x.node) (x :: list)) {rounds : ℕ} (start : ℕ)
    (hstart : start < x.data.length) (hnodes : (x :: list).length ≤ pool.nodes) (hne : sep ≠ [])
    (hlt : sep.length < 2 ^ 31) (i : ℤ)
    (hrounds : rounds = ((bytes (x :: list)).drop start).length + 1 - sep.length) :
    SocketBuffer.findSep sep rounds pool x.node start (x.data.length - start : ℕ) i =
      .ok ((((bytes (x :: list)).drop start).dropInfix? sep).map fun r => i + r.1.length) := by
  induction rounds generalizing x list start i with
  | zero =>
    rw [FirstInfix.eq_none_of_length_lt (by omega)]
    rfl
  | succ rounds ih =>
    have hcheck := h.checkSep (pool.nodes + 1) start
      (fun y rest hy => by
        cases hy
        exact Nat.le_of_lt hstart)
      hne hlt (by omega) (by omega)
    rw [SocketBuffer.findSep, toInt_of_lt hlt, hcheck]
    simp only [bind, Except.bind]
    by_cases hprefix : sep <+: (bytes (x :: list)).drop start
    · rw [if_pos (decide_eq_true hprefix), FirstInfix.of_isPrefix hprefix]
      simp [pure, Except.pure]
    · rw [if_neg (by simpa using hprefix)]
      -- the search goes on at the next byte
      obtain ⟨b, hb⟩ : ∃ b, (bytes (x :: list)).drop start =
          b :: (bytes (x :: list)).drop (start + 1) := by
        have hlen : start < (bytes (x :: list)).length := by
          rw [bytes_cons, length_append]
          omega
        exact ⟨_, drop_eq_getElem_cons hlen⟩
      have hlen := congrArg List.length hb
      rw [length_cons] at hlen
      rw [hb] at hprefix ⊢
      rw [FirstInfix.cons_of_not_prefix hprefix, Option.map_map]
      have hmap : ((fun r : List UInt8 × List UInt8 => i + (r.1.length : ℤ)) ∘
          fun r : List UInt8 × List UInt8 => (b :: r.1, r.2)) =
            fun r => i + 1 + (r.1.length : ℤ) := by
        funext r
        simp only [Function.comp_apply, length_cons, Int.natCast_succ]
        omega
      rw [hmap]
      by_cases hlast : start + 1 = x.data.length
      · rw [if_pos (by omega)]
        have hrest : (bytes (x :: list)).drop (start + 1) = bytes list := by
          rw [bytes_cons, hlast, drop_left]
        rw [hrest] at hlen ⊢
        rcases hlist : list with _ | ⟨y, rest⟩
        · subst hlist
          rw [h.rest.nil_head, bytes_nil, FirstInfix.eq_none_of_length_lt]
          · rfl
          · exact length_pos_iff.mpr hne
        · subst hlist
          have hnext := h.rest.head_eq
          have hy : 0 < y.data.length :=
            length_pos_iff.mpr (h.rest.nonempty y mem_cons_self)
          have hrest' : Holds pool (some y.node) (y :: rest) := hnext ▸ h.rest
          have hstep := ih hrest' 0 hy
            (by rw [length_cons] at hnodes; omega) (i + 1) (by rw [drop_zero]; omega)
          rw [drop_zero, Nat.sub_zero] at hstep
          rw [hnext]
          simp only [h.rest.sz_eq y mem_cons_self]
          exact hstep
      · rw [if_neg (by omega)]
        have hstep := ih h (start + 1) (by omega) hnodes (i + 1) (by omega)
        have hbytes : ((x.data.length - start : ℕ) : ℤ) - 1 =
            ((x.data.length - (start + 1) : ℕ) : ℤ) := by omega
        rw [hbytes]
        exact hstep

end Holds

/-! ### Buffers and the pool -/

/-- The nodes of a buffer are linked and hold the chunks; they and the free nodes are different, and
their messages have not been freed. -/
structure Queued (pool : Pool) (sb : SocketBuffer) (list : List Chunk) (free : List ℕ) :
    Prop where
  linked : Linked pool.nextOf sb.head sb.tail (list.map Chunk.node)
  holds : Holds pool sb.head list
  freelist : Seg pool.nextOf pool.freeNode free none
  nodes : (list.map Chunk.node ++ free).Nodup
  msgs : (list.map Chunk.msg ++ pool.freed).Nodup
  lt : ∀ n ∈ list.map Chunk.node, n < pool.nodes

/-- The bytes that are not read yet are those behind the offset, which is in the first node. -/
structure Buffered (pool : Pool) (sb : SocketBuffer) (list : List Chunk) (free : List ℕ)
    (unread : List UInt8) : Prop extends Queued pool sb list free where
  start : ∃ start : ℕ, sb.offset = start ∧ unread = (bytes list).drop start ∧
    (list = [] → start = 0) ∧ ∀ x rest, list = x :: rest → start < x.data.length

/-- What a function does to the pool: nodes go between the buffer and the free ones, with those of a
new page, messages are freed, and everything else is as before. -/
structure Effect (pool pool' : Pool) (list list' : List Chunk) (free free' fresh news : List ℕ) :
    Prop where
  nodes : (list'.map Chunk.node ++ free').Perm (list.map Chunk.node ++ free ++ fresh)
  msgs : (list'.map Chunk.msg ++ pool'.freed).Perm (list.map Chunk.msg ++ pool.freed ++ news)
  node_eq : ∀ n, n ∉ list.map Chunk.node → n ∉ free → n ∉ fresh → pool'.node n = pool.node n
  block_eq : ∀ m, m ∉ list.map Chunk.msg → m ∉ news → pool'.block m = pool.block m
  kept : ∀ m ∈ list'.map Chunk.msg, m ∈ list.map Chunk.msg ∨ m ∈ news
  count : pool'.nodes = pool.nodes + fresh.length

section Buffered

variable {pool pool' pool'' : Pool} {sb : SocketBuffer} {x : Chunk} {list list' list'' : List Chunk}
  {free free' free'' : List ℕ} {unread sep : List UInt8}

theorem Effect.refl (pool : Pool) (list : List Chunk) (free : List ℕ) :
    Effect pool pool list list free free [] [] where
  nodes := by rw [append_nil]
  msgs := by rw [append_nil]
  node_eq _ _ _ _ := rfl
  block_eq _ _ _ := rfl
  kept _ hm := .inl hm
  count := rfl

theorem Effect.trans (h : Effect pool pool' list list' free free' [] [])
    (h' : Effect pool' pool'' list' list'' free' free'' [] []) :
    Effect pool pool'' list list'' free free'' [] [] := by
  have hnodes := h.nodes
  have hnodes' := h'.nodes
  have hmsgs := h.msgs
  have hmsgs' := h'.msgs
  rw [append_nil] at hnodes hnodes' hmsgs hmsgs'
  have hkept {m : ℕ} (hm : m ∈ list'.map Chunk.msg) : m ∈ list.map Chunk.msg :=
    (h.kept m hm).resolve_right (not_mem_nil)
  refine ⟨by rw [append_nil]; exact hnodes'.trans hnodes,
    by rw [append_nil]; exact hmsgs'.trans hmsgs, fun n hn hf hnil => ?_, fun m hm hnil => ?_,
    fun m hm => .inl (hkept ((h'.kept m hm).resolve_right (not_mem_nil))),
    h'.count.trans h.count⟩
  · have hnot : n ∉ list'.map Chunk.node ++ free' := fun hmem =>
      (mem_append.mp (hnodes.mem_iff.mp hmem)).elim hn hf
    rw [mem_append, not_or] at hnot
    rw [h'.node_eq n hnot.1 hnot.2 hnil, h.node_eq n hn hf hnil]
  · rw [h'.block_eq m (fun hmem => hm (hkept hmem)) hnil, h.block_eq m hm hnil]

/-- **`return_free_node`**: the first node goes to the free ones, and its message is freed. -/
theorem Queued.returnFreeNode (h : Queued pool sb (x :: list) free) :
    ∃ sb' pool', sb.returnFreeNode pool = .ok (sb', pool') ∧
      Queued pool' sb' list (x.node :: free) ∧ sb'.offset = 0 ∧ sb'.size = sb.size ∧
      Effect pool pool' (x :: list) list free (x.node :: free) [] [] := by
  have hhead := h.holds.head_eq
  have hlinked := h.linked
  rw [hhead] at hlinked
  obtain ⟨l', hl', -, hpop⟩ := hlinked.pop
  obtain rfl : list.map Chunk.node = l' := (List.cons.inj hl').2
  have hnodes := h.nodes
  rw [map_cons, cons_append, nodup_cons, mem_append, not_or] at hnodes
  have hmsgs := h.msgs
  rw [map_cons, cons_append, nodup_cons, mem_append, not_or] at hmsgs
  have hmsg := h.holds.msg_eq x mem_cons_self
  have hblock := h.holds.block_eq x mem_cons_self
  let pool' : Pool := { pool with
    node := update pool.node x.node ⟨none, 0, pool.freeNode⟩
    freeNode := some x.node
    block := update pool.block x.msg none
    freed := x.msg :: pool.freed }
  have hnode {n : ℕ} (hn : n ≠ x.node) : pool'.node n = pool.node n := update_of_ne hn ..
  have hnext {n : ℕ} (hn : n ≠ x.node) : pool'.nextOf n = pool.nextOf n := by
    rw [Pool.nextOf, hnode hn, Pool.nextOf]
  have hmem {y : Chunk} (hy : y ∈ list) : y.node ≠ x.node :=
    ne_of_mem_of_not_mem (mem_map_of_mem hy) hnodes.1.1
  have hperm : (list.map Chunk.node ++ x.node :: free).Perm
      ((x :: list).map Chunk.node ++ free) := perm_middle
  have hrest := h.holds.rest
  refine ⟨{ sb with
    offset := 0
    head := pool.nextOf x.node
    tail := if pool.nextOf x.node = none then none else sb.tail }, pool', ?_,
    ⟨?_, ⟨?_, fun y hy => ?_, fun y hy => ?_, fun y hy => ?_, hrest.nonempty, hrest.length_lt⟩,
      ?_, ?_, ?_, fun n hn => h.lt n (mem_cons_of_mem _ hn)⟩, rfl, rfl,
    ⟨?_, ?_, fun n hn _ _ => ?_, fun m hm _ => ?_, fun m hm => ?_, rfl⟩⟩
  · have hfree : pool.free (some x.msg) = .ok { pool with
        block := update pool.block x.msg none
        freed := x.msg :: pool.freed } := by
      rw [Pool.free, hblock]
    rw [SocketBuffer.returnFreeNode, hhead]
    simp only [hmsg, hfree]
    rfl
  · exact hpop.congr fun n hn => by
      have hne := ne_of_mem_of_not_mem hn hnodes.1.1
      rw [hnext hne, update_of_ne hne]
  · exact hrest.seg.congr fun n hn => hnext (ne_of_mem_of_not_mem hn hnodes.1.1)
  · rw [hnode (hmem hy), hrest.msg_eq y hy]
  · rw [hnode (hmem hy), hrest.sz_eq y hy]
  · have hne : y.msg ≠ x.msg := ne_of_mem_of_not_mem (mem_map_of_mem hy) hmsgs.1.1
    exact (update_of_ne hne ..).trans (hrest.block_eq y hy)
  · refine .cons ?_
    have hself : pool'.nextOf x.node = pool.freeNode := by simp [pool', Pool.nextOf]
    rw [hself]
    exact h.freelist.congr fun n hn => hnext (ne_of_mem_of_not_mem hn hnodes.1.2)
  · rw [hperm.nodup_iff]
    exact h.nodes
  · exact (perm_middle.nodup_iff).mpr h.msgs
  · rw [append_nil]
    exact hperm
  · rw [append_nil]
    exact perm_middle
  · exact hnode fun heq => hn (heq ▸ mem_cons_self)
  · exact update_of_ne (ne_of_mem_of_not_mem mem_cons_self hm).symm ..
  · exact .inl (mem_cons_of_mem _ hm)

/-- A buffer whose first node has not been read from. -/
theorem Queued.buffered (h : Queued pool sb list free) (hoffset : sb.offset = 0) :
    Buffered pool sb list free (bytes list) :=
  { h with
    start := ⟨0, hoffset, rfl, fun _ => rfl, fun x _ hlist =>
      length_pos_iff.mpr (h.holds.nonempty x (hlist ▸ mem_cons_self))⟩ }

section

variable (h : Buffered pool sb list free unread)
include h

theorem Buffered.withSize (size : ℤ) : Buffered pool { sb with size } list free unread :=
  { linked := h.linked
    holds := h.holds
    freelist := h.freelist
    nodes := h.nodes
    msgs := h.msgs
    lt := h.lt
    start := h.start }

theorem Buffered.length_le : list.length ≤ pool.nodes := by
  have hsub : list.map Chunk.node ⊆ List.range pool.nodes := fun n hn =>
    mem_range.mpr (h.lt n hn)
  have hle := (List.Nodup.subperm (nodup_append.mp h.nodes).1 hsub).length_le
  rwa [length_map, length_range] at hle

theorem Buffered.exists_first (hne : unread ≠ []) :
    ∃ x rest start, list = x :: rest ∧ sb.head = some x.node ∧ sb.offset = (start : ℕ) ∧
      start < x.data.length ∧ unread = x.data.drop start ++ bytes rest := by
  obtain ⟨start, hoffset, hunread, -, hlt⟩ := h.start
  rcases hlist : list with _ | ⟨x, rest⟩
  · rw [hlist, bytes_nil, drop_nil] at hunread
    exact absurd hunread hne
  · have hx := hlt x rest hlist
    refine ⟨x, rest, start, rfl, (hlist ▸ h.holds).head_eq, hoffset, hx, ?_⟩
    rw [hunread, hlist, bytes_cons, drop_append_of_le_length (Nat.le_of_lt hx)]

end

/-- What a read from a buffer leaves. -/
structure Left (pool : Pool) (sb : SocketBuffer) (list : List Chunk) (free : List ℕ)
    (sb' : SocketBuffer) (pool' : Pool) (unread : List UInt8) : Prop where
  left : ∃ list' free', Buffered pool' sb' list' free' unread ∧
    Effect pool pool' list list' free free' [] []
  size : sb'.size = sb.size

variable {fuel : ℕ}

/-- **The loop of `pop_lstring`** takes the next bytes, and copies those in front of the last
`skip` ones. -/
theorem Buffered.popLoop (h : Buffered pool sb list free unread) (sz : ℕ) {skip : ℕ} (hpos : 0 < sz)
    (hle : sz ≤ unread.length) (hlt : unread.length < 2 ^ 31) (hskip : skip < 2 ^ 31)
    (hfuel : list.length < fuel) :
    ∃ sb' pool', sb.popLoop fuel pool sz skip = .ok (unread.take (sz - skip), sb', pool') ∧
      Left pool sb list free sb' pool' (unread.drop sz) := by
  induction fuel generalizing pool sb list free unread sz with
  | zero => exact absurd hfuel (Nat.not_lt_zero _)
  | succ fuel ih =>
    obtain ⟨x, rest, start, rfl, hhead, hoffset, hx, hunread⟩ :=
      h.exists_first (length_pos_iff.mp (Nat.lt_of_lt_of_le hpos hle))
    obtain ⟨size, offset, head, tail⟩ := sb
    obtain rfl : head = some x.node := hhead
    obtain rfl : offset = start := hoffset
    have hlen : (x.data.drop start).length = x.data.length - start := length_drop
    have hlength := h.holds.length_lt x mem_cons_self
    have hreal : toInt ((sz : ℤ) - skip) = (sz : ℤ) - skip := by
      rw [toInt, Int.bmod_eq_of_le] <;> omega
    rw [SocketBuffer.popLoop]
    simp only [h.holds.toInt_left (Nat.le_of_lt hx), hreal]
    by_cases hcase : sz ≤ x.data.length - start
    · -- the node has all of them
      have hcopy : pool.copyIf ((skip : ℤ) < sz) x.node start ((sz : ℤ) - skip) =
          .ok (unread.take (sz - skip)) := by
        simp only [Pool.copyIf, decide_eq_true_eq]
        split_ifs with hcond
        · have hsub : ((sz : ℤ) - skip) = ((sz - skip : ℕ) : ℤ) := by omega
          rw [hsub, h.holds.copy_eq (by omega), hunread, take_append_of_le_length (by omega)]
        · rw [Nat.sub_eq_zero_of_le (by omega), take_zero]
      have hsum : toInt ((start : ℤ) + sz) = ((start + sz : ℕ) : ℤ) := by
        rw [← Int.natCast_add]
        exact toInt_of_lt (by omega)
      rw [if_pos (Int.ofNat_le.mpr hcase), hcopy]
      simp only [bind, Except.bind, hsum]
      by_cases hexact : x.data.length - start = sz
      · have hq : Queued pool ⟨size, (start + sz : ℕ), some x.node, tail⟩ (x :: rest) free :=
          { h with }
        obtain ⟨sb', pool', heq, hq', hoffset', hsize, heffect⟩ := hq.returnFreeNode
        rw [if_pos (Int.natCast_inj.mpr hexact), heq]
        refine ⟨sb', pool', rfl, ⟨⟨rest, _, ?_, heffect⟩, hsize⟩⟩
        have hdrop : unread.drop sz = bytes rest := by
          rw [hunread, ← hexact, ← hlen, drop_left]
        rw [hdrop]
        exact hq'.buffered hoffset'
      · have hfit : start + sz < x.data.length :=
          Nat.add_lt_of_lt_sub' (Nat.lt_of_le_of_ne hcase (Ne.symm hexact))
        rw [if_neg (fun hcon => hexact (Int.natCast_inj.mp hcon))]
        refine ⟨_, pool, rfl, ⟨⟨x :: rest, free, { h with start := ?_ }, .refl ..⟩, rfl⟩⟩
        refine ⟨start + sz, rfl, ?_, by simp, fun y l hy => ?_⟩
        · rw [hunread, drop_append_of_le_length (hlen ▸ hcase), drop_drop, bytes_cons,
            drop_append_of_le_length (Nat.le_of_lt hfit)]
        · cases hy
          exact hfit
    · rw [if_neg (fun hcon => hcase (Int.ofNat_le.mp hcon))]
      have hcopy : pool.copyIf ((0 : ℤ) < (sz : ℤ) - skip) x.node start
          (if (sz : ℤ) - skip < (x.data.length - start : ℕ) then (sz : ℤ) - skip
            else (x.data.length - start : ℕ)) =
          .ok ((x.data.drop start).take (sz - skip)) := by
        simp only [Pool.copyIf, decide_eq_true_eq]
        split_ifs with hcond hless
        · have hsub : ((sz : ℤ) - skip) = ((sz - skip : ℕ) : ℤ) := by omega
          rw [hsub, h.holds.copy_eq (by omega)]
        · rw [h.holds.copy_eq (by omega), take_of_length_le (by omega),
            take_of_length_le (by omega)]
        · rw [Nat.sub_eq_zero_of_le (by omega), take_zero]
      obtain ⟨sb', pool', heq, hq', hoffset', hsize, heffect⟩ := h.toQueued.returnFreeNode
      have hsub : toInt ((sz : ℤ) - (x.data.length - start : ℕ)) =
          ((sz - (x.data.length - start) : ℕ) : ℤ) := by
        rw [← Int.ofNat_sub (by omega)]
        exact toInt_of_lt (by omega)
      have hbytes : unread.length = (x.data.length - start) + (bytes rest).length := by
        rw [hunread, length_append, hlen]
      rw [hcopy]
      simp only [bind, Except.bind, heq, hsub]
      rw [if_neg (by omega)]
      obtain ⟨sb'', pool'', hloop, ⟨list', free', hleft, heffect'⟩, hsize'⟩ :=
        ih (hq'.buffered hoffset') (sz - (x.data.length - start)) (by omega) (by omega)
          (by omega) (by rw [length_cons] at hfuel; omega)
      rw [hloop]
      refine ⟨sb'', pool'', ?_, ⟨⟨list', free', ?_, heffect.trans heffect'⟩, hsize'.trans hsize⟩⟩
      · simp only [pure, Except.pure]
        rw [hunread, take_append, hlen]
        congr 4
        omega
      · rw [hunread, drop_append, hlen, drop_of_length_le (by omega), nil_append]
        exact hleft

theorem returnFreeNode_offset (sb : SocketBuffer) (offset : ℤ) (pool : Pool) :
    { sb with offset }.returnFreeNode pool = sb.returnFreeNode pool := by
  simp only [SocketBuffer.returnFreeNode]

/-- The first two cases of `pop_lstring` are what the loop does in its first round. -/
theorem Buffered.popLstring_eq (h : Buffered pool sb list free unread) {sz skip : ℕ}
    (hpos : 0 < sz) (hle : sz ≤ unread.length) (hlt : unread.length < 2 ^ 31) (hskip : skip ≤ sz) :
    sb.popLstring pool sz skip = sb.popLoop (pool.nodes + 1) pool sz skip := by
  obtain ⟨x, rest, start, rfl, hhead, hoffset, hx, -⟩ :=
    h.exists_first (length_pos_iff.mp (Nat.lt_of_lt_of_le hpos hle))
  obtain ⟨size, offset, head, tail⟩ := sb
  obtain rfl : head = some x.node := hhead
  obtain rfl : offset = start := hoffset
  have hreal : toInt ((sz : ℤ) - skip) = ((sz - skip : ℕ) : ℤ) := by
    rw [← Int.ofNat_sub hskip]
    exact toInt_of_lt (by omega)
  have hcopy (hcase : sz ≤ x.data.length - start) :
      pool.copyIf ((skip : ℤ) < sz) x.node start (sz - skip : ℕ) =
        pool.copy x.node start (sz - skip : ℕ) := by
    rw [Pool.copyIf]
    split_ifs with hcond
    · rfl
    · rw [h.holds.copy_eq (by omega), Nat.sub_eq_zero_of_le (by simpa using hcond), take_zero]
  rw [SocketBuffer.popLstring, SocketBuffer.popLoop]
  simp only [h.holds.toInt_left (Nat.le_of_lt hx), hreal]
  rcases Nat.lt_trichotomy sz (x.data.length - start) with hcase | hcase | hcase
  · have hne : ¬((x.data.length - start : ℕ) : ℤ) = sz := fun heq =>
      Nat.ne_of_gt hcase (Int.natCast_inj.mp heq)
    rw [if_pos (Int.ofNat_lt.mpr hcase), if_pos (Int.ofNat_le.mpr (Nat.le_of_lt hcase)),
      hcopy (Nat.le_of_lt hcase)]
    simp only [if_neg hne]
  · have heq : ((x.data.length - start : ℕ) : ℤ) = sz := Int.natCast_inj.mpr hcase.symm
    rw [if_neg (Int.not_lt.mpr (Int.le_of_eq heq)), if_pos heq.symm, if_pos (Int.le_of_eq heq.symm),
      hcopy (Nat.le_of_eq hcase)]
    simp only [if_pos heq,
      returnFreeNode_offset ⟨size, start, some x.node, tail⟩ (toInt (start + sz)) pool]
  · have hlt' : ((x.data.length - start : ℕ) : ℤ) < sz := Int.ofNat_lt.mpr hcase
    rw [if_neg (Int.not_lt.mpr (Int.le_of_lt hlt')), if_neg (Int.ne_of_gt hlt'),
      if_neg (Int.not_le.mpr hlt')]

/-- **`pop_lstring`** -/
theorem Buffered.popLstring (h : Buffered pool sb list free unread) (sz skip : ℕ)
    (hpos : 0 < sz) (hle : sz ≤ unread.length) (hlt : unread.length < 2 ^ 31) (hskip : skip ≤ sz) :
    ∃ sb' pool', sb.popLstring pool sz skip = .ok (unread.take (sz - skip), sb', pool') ∧
      Left pool sb list free sb' pool' (unread.drop sz) := by
  rw [h.popLstring_eq hpos hle hlt hskip]
  refine h.popLoop sz hpos hle hlt ?_ (Nat.lt_succ_of_le h.length_le)
  exact Nat.lt_of_le_of_lt (Nat.le_trans hskip hle) hlt

theorem Buffered.left_nil (h : Buffered pool sb [] free unread) :
    Left pool sb [] free sb pool [] := by
  obtain ⟨start, -, hunread, -⟩ := h.start
  rw [bytes_nil, drop_nil] at hunread
  subst hunread
  exact ⟨⟨[], free, h, .refl ..⟩, rfl⟩

/-- A first node that is given back, and what is done with the rest. -/
theorem Left.cons {sb' sb'' : SocketBuffer} (hsize : sb'.size = sb.size)
    (heffect : Effect pool pool' (x :: list) list free (x.node :: free) [] [])
    (h : Left pool' sb' list (x.node :: free) sb'' pool'' unread) :
    Left pool sb (x :: list) free sb'' pool'' unread := by
  obtain ⟨⟨list', free', hleft, heffect'⟩, hsize'⟩ := h
  exact ⟨⟨list', free', hleft, heffect.trans heffect'⟩, hsize'.trans hsize⟩

/-- **The loop of `lreadall`** -/
theorem Buffered.readallLoop (h : Buffered pool sb list free unread) (hfuel : list.length < fuel) :
    ∃ sb' pool', sb.readallLoop fuel pool = .ok (unread, sb', pool') ∧
      Left pool sb list free sb' pool' [] := by
  induction list generalizing pool sb free unread fuel with
  | nil =>
    obtain ⟨fuel, rfl⟩ : ∃ n, fuel = n + 1 := ⟨fuel - 1, by omega⟩
    obtain ⟨start, -, hunread, -⟩ := h.start
    rw [bytes_nil, drop_nil] at hunread
    refine ⟨sb, pool, ?_, h.left_nil⟩
    rw [SocketBuffer.readallLoop, h.holds.nil_head, hunread]
  | cons x list ih =>
    obtain ⟨fuel, rfl⟩ : ∃ n, fuel = n + 1 := ⟨fuel - 1, by omega⟩
    obtain ⟨start, hoffset, hunread, -, hlt⟩ := h.start
    have hx := hlt x list rfl
    obtain ⟨sb', pool', heq, hq, hoffset', hsize, heffect⟩ := h.toQueued.returnFreeNode
    obtain ⟨sb'', pool'', hloop, hleft⟩ :=
      ih (hq.buffered hoffset') (Nat.lt_of_succ_lt_succ hfuel)
    refine ⟨sb'', pool'', ?_, hleft.cons hsize heffect⟩
    rw [SocketBuffer.readallLoop, h.holds.head_eq]
    simp only [hoffset, h.holds.toInt_left (Nat.le_of_lt hx)]
    rw [h.holds.copy_eq (by omega), take_of_length_le (by rw [length_drop])]
    simp only [bind, Except.bind, heq, hloop]
    rw [hunread, bytes_cons, drop_append_of_le_length (Nat.le_of_lt hx)]
    rfl

/-- **The loop of `lclearbuffer`** -/
theorem Buffered.clearLoop (h : Buffered pool sb list free unread) (hfuel : list.length < fuel) :
    ∃ sb' pool', sb.clearLoop fuel pool = .ok (sb', pool') ∧
      Left pool sb list free sb' pool' [] := by
  induction list generalizing pool sb free unread fuel with
  | nil =>
    obtain ⟨fuel, rfl⟩ : ∃ n, fuel = n + 1 := ⟨fuel - 1, by omega⟩
    refine ⟨sb, pool, ?_, h.left_nil⟩
    rw [SocketBuffer.clearLoop, h.holds.nil_head]
  | cons x list ih =>
    obtain ⟨fuel, rfl⟩ : ∃ n, fuel = n + 1 := ⟨fuel - 1, by omega⟩
    obtain ⟨sb', pool', heq, hq, hoffset, hsize, heffect⟩ := h.toQueued.returnFreeNode
    obtain ⟨sb'', pool'', hloop, hleft⟩ :=
      ih (hq.buffered hoffset) (Nat.lt_of_succ_lt_succ hfuel)
    refine ⟨sb'', pool'', ?_, hleft.cons hsize heffect⟩
    rw [SocketBuffer.clearLoop, h.holds.head_eq]
    simp only [bind, Except.bind, heq, hloop]

end Buffered

/-! ### New chunks -/

theorem nextOf_set (pool : Pool) (n : ℕ) (node : BufferNode) :
    (pool.set n node).nextOf = update pool.nextOf n node.next := by
  funext k
  rw [Pool.nextOf, Pool.set]
  by_cases hk : k = n
  · subst hk
    simp only [update_self]
  · simp only [update_of_ne hk]
    rfl

theorem Pool.pageSize_pos (pool : Pool) : 0 < pool.pageSize := by
  rw [Pool.pageSize]
  simp only [Nat.shiftLeft_eq]
  split_ifs <;> exact Nat.mul_pos (Nat.succ_pos 7) (Nat.two_pow_pos _)

/-- A node is taken from the free ones, or from a new page, whose other nodes are free. -/
theorem Pool.take_spec {pool : Pool} {free : List ℕ}
    (hfree : Seg pool.nextOf pool.freeNode free none) :
    ∃ n pool' free' fresh, pool.take = (n, pool') ∧ free ++ fresh = n :: free' ∧
      Seg pool'.nextOf pool'.freeNode free' none ∧
      fresh = List.range' pool.nodes fresh.length ∧
      (∀ k, k ∉ fresh → pool'.node k = pool.node k) ∧ pool'.block = pool.block ∧
      pool'.freed = pool.freed ∧ pool'.nodes = pool.nodes + fresh.length := by
  rw [Pool.take]
  cases hnode : pool.freeNode with
  | some n =>
    rw [hnode] at hfree
    cases hfree with
    | @cons _ free' _ hrest =>
      exact ⟨n, _, free', [], rfl, append_nil _, hrest, rfl, fun _ _ => rfl, rfl, rfl, rfl⟩
  | none =>
    rw [hnode] at hfree
    cases hfree with
    | nil =>
      obtain ⟨k, hk⟩ : ∃ k, pool.pageSize = k + 1 :=
        ⟨pool.pageSize - 1, by have := pool.pageSize_pos; omega⟩
      have hseg : Seg (pool.newpool (k + 1)).nextOf (some pool.nodes)
          (List.range' pool.nodes (k + 1)) none := by
        refine Seg.range' (Nat.succ_pos k) fun i hi => ?_
        simp only [Pool.nextOf, Pool.newpool]
        rw [if_pos ⟨Nat.le_add_right _ _, Nat.add_lt_add_left hi _⟩]
        simp only [Nat.add_assoc, Nat.add_lt_add_iff_left]
      rw [range'_succ] at hseg
      refine ⟨pool.nodes, _, List.range' (pool.nodes + 1) k, List.range' pool.nodes (k + 1), rfl,
        ?_, ?_, ?_, fun n hn => ?_, rfl, rfl, ?_⟩
      · rw [nil_append, range'_succ]
      · rw [hk]
        exact (Seg.cons_iff.mp hseg).2
      · rw [length_range']
      · rw [hk]
        refine if_neg fun hcon => hn (mem_range'_1.mpr hcon)
      · rw [hk, length_range']
        rfl

section Push

variable {pool pool' : Pool} {sb sb' : SocketBuffer} {list : List Chunk} {free free' : List ℕ}
  {unread data : List UInt8} {n m : ℕ}

theorem Buffered.concat (h : Buffered pool sb list free unread) (hne : data ≠ [])
    (hlt : data.length < 2 ^ 31) (hblock : pool.block m = some data)
    (hlinked : Linked pool'.nextOf sb'.head sb'.tail (list.map Chunk.node ++ [n]))
    (hold : ∀ k ∈ list.map Chunk.node, (pool'.node k).msg = (pool.node k).msg ∧
      (pool'.node k).sz = (pool.node k).sz)
    (hnew : (pool'.node n).msg = some m ∧ (pool'.node n).sz = data.length)
    (hblock' : pool'.block = pool.block) (hfree : Seg pool'.nextOf pool'.freeNode free' none)
    (hnodes : (list.map Chunk.node ++ n :: free').Nodup)
    (hmsgs : (list.map Chunk.msg ++ m :: pool'.freed).Nodup)
    (hbound : ∀ k ∈ list.map Chunk.node ++ [n], k < pool'.nodes)
    (hoffset : sb'.offset = sb.offset) :
    Buffered pool' sb' (list ++ [⟨n, m, data⟩]) free' (unread ++ data) := by
  have hmap : (list ++ [(⟨n, m, data⟩ : Chunk)]).map Chunk.node = list.map Chunk.node ++ [n] :=
    map_append
  have hmap' : (list ++ [(⟨n, m, data⟩ : Chunk)]).map Chunk.msg = list.map Chunk.msg ++ [m] :=
    map_append
  have hmem {y : Chunk} (hy : y ∈ list ++ [⟨n, m, data⟩]) : y ∈ list ∨ y = ⟨n, m, data⟩ :=
    (mem_append.mp hy).imp_right mem_singleton.mp
  refine { linked := hmap ▸ hlinked, holds := ⟨hmap ▸ hlinked.seg, ?_, ?_, ?_, ?_, ?_⟩,
           freelist := hfree, nodes := ?_, msgs := ?_, lt := hmap ▸ hbound, start := ?_ }
  · intro y hy
    rcases hmem hy with hy | rfl
    · rw [(hold _ (mem_map_of_mem hy)).1, h.holds.msg_eq y hy]
    · exact hnew.1
  · intro y hy
    rcases hmem hy with hy | rfl
    · rw [(hold _ (mem_map_of_mem hy)).2, h.holds.sz_eq y hy]
    · exact hnew.2
  · intro y hy
    rw [hblock']
    rcases hmem hy with hy | rfl
    · exact h.holds.block_eq y hy
    · exact hblock
  · intro y hy
    rcases hmem hy with hy | rfl
    · exact h.holds.nonempty y hy
    · exact hne
  · intro y hy
    rcases hmem hy with hy | rfl
    · exact h.holds.length_lt y hy
    · exact hlt
  · rw [hmap, append_assoc]
    exact hnodes
  · rw [hmap', append_assoc]
    exact hmsgs
  · obtain ⟨start, hstart, hunread, hnil, hfirst⟩ := h.start
    have hbytes : bytes (list ++ [⟨n, m, data⟩]) = bytes list ++ data := by
      simp [bytes, flatMap_append]
    have hpos := length_pos_iff.mpr hne
    refine ⟨start, hoffset.trans hstart, ?_, fun hcon => ?_, fun y rest hy => ?_⟩
    · rw [hbytes, hunread, drop_append_of_le_length]
      rcases hlist : list with _ | ⟨x, rest⟩
      · exact Nat.le_of_eq (hnil hlist)
      · rw [bytes_cons, length_append]
        exact Nat.le_trans (Nat.le_of_lt (hfirst x rest hlist)) (Nat.le_add_right _ _)
    · simp at hcon
    · rcases hlist : list with _ | ⟨x, rest'⟩
      · rw [hlist] at hy
        cases hy
        rw [hnil hlist]
        exact hpos
      · rw [hlist] at hy
        cases hy
        exact hfirst _ _ hlist

/-- **`lpushbuffer`**: a message becomes the last chunk. -/
theorem Buffered.pushbuffer (h : Buffered pool sb list free unread) (hne : data ≠ [])
    (hlt : data.length < 2 ^ 31) (hblock : pool.block m = some data)
    (hm : m ∉ list.map Chunk.msg ++ pool.freed) (hbound : ∀ n ∈ free, n < pool.nodes) :
    ∃ n sb' pool' free' fresh, sb.pushbuffer pool m data.length = .ok (sb', pool') ∧
      Buffered pool' sb' (list ++ [⟨n, m, data⟩]) free' (unread ++ data) ∧
      Effect pool pool' list (list ++ [⟨n, m, data⟩]) free free' fresh [m] ∧
      fresh = List.range' pool.nodes fresh.length ∧
      sb'.size = toInt (sb.size + data.length) := by
  obtain ⟨n, pool₁, free', fresh, htake, hperm, hseg, hfresh, hnode, hblock₁, hfreed₁, hcount⟩ :=
    Pool.take_spec h.freelist
  have hge {k : ℕ} (hk : k ∈ fresh) : pool.nodes ≤ k := by
    rw [hfresh] at hk
    exact (mem_range'_1.mp hk).1
  -- the nodes of the buffer, the free ones and the new ones are different
  have hall : (list.map Chunk.node ++ n :: free').Nodup := by
    rw [← hperm, ← append_assoc]
    refine nodup_append.mpr ⟨h.nodes, hfresh ▸ nodup_range', fun a ha b hb heq => ?_⟩
    subst heq
    have hlt : a < pool.nodes := (mem_append.mp ha).elim (h.lt a) (hbound a)
    exact Nat.not_lt_of_le (hge hb) hlt
  have hsplit := nodup_append.mp hall
  have hnfree : n ∉ free' := (nodup_cons.mp hsplit.2.1).1
  have hnlist : n ∉ list.map Chunk.node := fun hmem =>
    hsplit.2.2 n hmem n mem_cons_self rfl
  have hmsgs : (list.map Chunk.msg ++ m :: pool.freed).Nodup := by
    rw [perm_middle.nodup_iff]
    exact nodup_cons.mpr ⟨hm, h.msgs⟩
  have hnlt : ∀ k ∈ list.map Chunk.node ++ [n], k < pool₁.nodes := by
    intro k hk
    rcases mem_append.mp hk with hk | hk
    · exact Nat.lt_of_lt_of_le (h.lt k hk) (hcount ▸ Nat.le_add_right _ _)
    · obtain rfl := mem_singleton.mp hk
      have hmem : k ∈ free ++ fresh := hperm ▸ mem_cons_self
      rcases mem_append.mp hmem with hmem | hmem
      · exact Nat.lt_of_lt_of_le (hbound k hmem) (hcount ▸ Nat.le_add_right _ _)
      · rw [hfresh] at hmem
        exact hcount ▸ (mem_range'_1.mp hmem).2
  let pool₂ := pool₁.set n ⟨some m, data.length, none⟩
  have hnew : pool₂.node n = ⟨some m, data.length, none⟩ := update_self ..
  have hkeep {k : ℕ} (hk : k ≠ n) : pool₂.node k = pool₁.node k := update_of_ne hk ..
  have hold {k : ℕ} (hk : k ∈ list.map Chunk.node) : pool₂.node k = pool.node k := by
    rw [hkeep (ne_of_mem_of_not_mem hk hnlist)]
    exact hnode k fun hmem => Nat.not_lt_of_le (hge hmem) (h.lt k hk)
  have hlinked : Linked pool₂.nextOf sb.head sb.tail (list.map Chunk.node) :=
    h.linked.congr fun k hk => by rw [Pool.nextOf, hold hk, Pool.nextOf]
  have hseg₂ : Seg pool₂.nextOf pool₂.freeNode free' none :=
    hseg.congr fun k hk => by
      rw [Pool.nextOf, hkeep (ne_of_mem_of_not_mem hk hnfree), Pool.nextOf]
  have hnext : pool₂.nextOf n = none := by rw [Pool.nextOf, hnew]
  have hlen : toInt (data.length : ℤ) = data.length := toInt_of_lt hlt
  have hother {k : ℕ} (hk : k ∉ list.map Chunk.node) (hf : k ∉ free) (hnf : k ∉ fresh) :
      k ≠ n ∧ pool₂.node k = pool.node k := by
    have hkn : k ≠ n := by
      rintro rfl
      have hmem : k ∈ free ++ fresh := hperm ▸ mem_cons_self
      exact (mem_append.mp hmem).elim hf hnf
    exact ⟨hkn, (hkeep hkn).trans (hnode k hnf)⟩
  have hperm' : (list.map Chunk.node ++ [n] ++ free').Perm
      (list.map Chunk.node ++ free ++ fresh) := by
    rw [append_assoc, append_assoc, hperm]
    rfl
  have hpermMsgs : (list.map Chunk.msg ++ [m] ++ pool.freed).Perm
      (list.map Chunk.msg ++ pool.freed ++ [m]) := by
    rw [append_assoc, append_assoc]
    exact List.Perm.append_left _ perm_append_comm
  have heffect {pool' : Pool} (hnodes : ∀ k, k ∉ list.map Chunk.node → k ≠ n →
      pool'.node k = pool₂.node k) (hblock' : pool'.block = pool.block)
      (hfreed' : pool'.freed = pool.freed) (hcount' : pool'.nodes = pool₁.nodes) :
      Effect pool pool' list (list ++ [⟨n, m, data⟩]) free free' fresh [m] := by
    refine ⟨?_, ?_, fun k hk hf hnf => ?_, fun k _ _ => by rw [hblock'], fun k hk => ?_,
      hcount'.trans hcount⟩
    · rw [map_append]
      exact hperm'
    · rw [map_append, hfreed']
      exact hpermMsgs
    · obtain ⟨hkn, hkeep'⟩ := hother hk hf hnf
      rw [hnodes k hk hkn, hkeep']
    · rw [map_append] at hk
      exact mem_append.mp hk
  cases htail : sb.tail with
  | none =>
    rw [htail] at hlinked
    obtain ⟨hnil, hone⟩ := hlinked.push_first hnext
    rw [hnil] at hlinked
    have hhead : sb.head = none := Seg.nil_iff.mp hlinked.seg
    refine ⟨n, { sb with size := toInt (sb.size + data.length), head := some n, tail := some n },
      pool₂, free', fresh, ?_, ?_, ?_, hfresh, rfl⟩
    · rw [SocketBuffer.pushbuffer]
      simp only [htake, hhead, htail, hlen]
      rfl
    · refine h.concat hne hlt hblock ?_ (fun k hk => ?_) ⟨by rw [hnew], by rw [hnew]⟩ hblock₁
        hseg₂ hall ?_ hnlt rfl
      · rw [hnil]
        exact hone
      · rw [hold hk]
        exact ⟨rfl, rfl⟩
      · exact hfreed₁ ▸ hmsgs
    · exact heffect (fun _ _ _ => rfl) hblock₁ hfreed₁ rfl
  | some t =>
    rw [htail] at hlinked
    obtain ⟨a, hhead⟩ := Option.ne_none_iff_exists'.mp hlinked.head_ne_none
    have ht : t ∈ list.map Chunk.node := mem_of_getLast? hlinked.tail_eq.symm
    have htn : n ≠ t := (ne_of_mem_of_not_mem ht hnlist).symm
    let pool₃ := pool₂.set t { pool₂.node t with next := some n }
    have hset {k : ℕ} (hk : k ≠ t) : pool₃.node k = pool₂.node k := update_of_ne hk ..
    have hfields (k : ℕ) : (pool₃.node k).msg = (pool₂.node k).msg ∧
        (pool₃.node k).sz = (pool₂.node k).sz := by
      by_cases hk : k = t
      · subst hk
        simp only [pool₃, Pool.set, update_self, and_self]
      · rw [hset hk]
        exact ⟨rfl, rfl⟩
    have htfree : t ∉ free' := fun hmem =>
      hsplit.2.2 t ht t (mem_cons_of_mem _ hmem) rfl
    refine ⟨n, { sb with size := toInt (sb.size + data.length), tail := some n }, pool₃, free',
      fresh, ?_, ?_, ?_, hfresh, rfl⟩
    · rw [SocketBuffer.pushbuffer]
      simp only [htake, hhead, htail, hlen]
      rfl
    · refine h.concat hne hlt hblock ?_ (fun k hk => ?_) ?_ hblock₁ ?_ hall ?_ hnlt rfl
      · rw [nextOf_set]
        exact hlinked.push_last hnlist hnext
      · rw [(hfields k).1, (hfields k).2, hold hk]
        exact ⟨rfl, rfl⟩
      · rw [hset htn, hnew]
        exact ⟨rfl, rfl⟩
      · exact hseg₂.congr fun k hk => by
          rw [Pool.nextOf, hset (ne_of_mem_of_not_mem hk htfree), Pool.nextOf]
      · exact hfreed₁ ▸ hmsgs
    · refine heffect (fun k hk _ => ?_) hblock₁ hfreed₁ rfl
      exact hset (ne_of_mem_of_not_mem ht hk).symm

end Push

end Mtask.LuaSocket
