import Mathlib.Data.Int.Notation
import Mtask.Lib.Transition

/-!
# The package of a publication

The life of one `mc_package`, from the `PUB` or the message with which it comes to `multicastd` to
the last `mc.close`. The subscribers run in other threads, and so their steps come between those of
`publish`.
-/

namespace Mtask.Multicast

open Transition

/-- What is found for the channel: whether this node owns it, `channel_n[c]` if there is a group,
and the number of nodes in `channel_remote[c]` if there is an entry. -/
structure Publication where
  owned : Bool
  group : Option ℕ
  remote : Option ℕ

/-- Where the publishing service stands: before the command, before `mc.close` of a dead channel, in
the loop over the group, before `mc.unpack`, before `mtask.tostring(msg,sz)`, in the loop over the
nodes, and after all. -/
inductive PublishPc
  | command
  | close
  | redirect (left : ℕ)
  | unpack
  | tostring
  | forward (left : ℕ)
  | done
  deriving DecidableEq

inductive PackageFault
  | freed
  /-- `Can't bind a multicast package more than once` -/
  | boundTwice
  /-- `Invalid multicast package reference` -/
  | negative
  deriving DecidableEq

/-- The `mc_package`, with how often it and its data were freed, the pointers in mailboxes, those
that a subscriber works on, and those that went with a subscriber that has ended; and whether the
data is in a message to another node. -/
structure Packaged where
  pc : PublishPc
  reference : ℤ
  freed : ℕ
  dataFreed : ℕ
  sent : ℕ
  opened : ℕ
  dropped : ℕ
  inMessage : Bool
  fault : Option PackageFault
  deriving DecidableEq

/-- The steps: the next one of the publishing service, a subscriber that unpacks its message, one
that closes its package, a message for a subscriber that has ended, and the data taken from the
message to another node. -/
inductive PackageEvent
  | publish
  | unpack
  | close
  | drop
  | send
  deriving DecidableEq

inductive PackageStop
  | disabled

namespace Packaged

/-- A package of `pack`. -/
def init : Packaged where
  pc := .command
  reference := 0
  freed := 0
  dataFreed := 0
  sent := 0
  opened := 0
  dropped := 0
  inMessage := false
  fault := none

/-- A use of the package or of its data. -/
def access (w : Packaged) (f : Packaged → Packaged) : Packaged :=
  if w.freed = 0 ∧ w.dataFreed = 0 then f w else { w with fault := some .freed }

/-- `mc_closelocal` -/
def close (w : Packaged) : Packaged :=
  w.access fun w =>
    let w := { w with reference := w.reference - 1 }
    if w.reference ≤ 0 then
      let w := { w with freed := w.freed + 1, dataFreed := w.dataFreed + 1 }
      if w.reference < 0 then { w with fault := some .negative } else w
    else w

/-- `mc_bindrefer` -/
def bind (w : Packaged) (ref : ℤ) : Packaged :=
  w.access fun w =>
    if w.reference ≠ 0 then { w with fault := some .boundTwice } else { w with reference := ref }

/-- `mc_remote` -/
def remote (w : Packaged) : Packaged :=
  w.access fun w => { w with freed := w.freed + 1, inMessage := true }

/-- `command.PUB` and `publish`, one step for each use of the package and for each message sent -/
def publish (p : Publication) (w : Packaged) : Except PackageStop Packaged :=
  match w.pc with
  | .command =>
    if p.owned then
      match p.group with
      | none => .ok { w.bind 1 with pc := .close }
      | some n => .ok { w.bind n with pc := .redirect n }
    else .ok { w.remote with pc := .done }
  | .close => .ok { w.close with pc := .done }
  | .redirect (left + 1) => .ok { w with pc := .redirect left, sent := w.sent + 1 }
  | .redirect 0 => .ok { w with pc := if p.remote = none then .done else .unpack }
  | .unpack => .ok { w.access id with pc := .tostring }
  | .tostring => .ok { w.access id with pc := .forward (p.remote.getD 0) }
  | .forward (left + 1) => .ok { w with pc := .forward left }
  | .forward 0 => .ok { w with pc := .done }
  | .done => .error .disabled

def step (p : Publication) (w : Packaged) : PackageEvent → Except PackageStop Packaged
  | .publish => w.publish p
  | .unpack =>
    if 0 < w.sent then
      .ok { w.access id with sent := w.sent - 1, opened := w.opened + 1 }
    else .error .disabled
  | .close =>
    if 0 < w.opened then .ok { w.close with opened := w.opened - 1 } else .error .disabled
  | .drop =>
    if 0 < w.sent then .ok { w with sent := w.sent - 1, dropped := w.dropped + 1 }
    else .error .disabled
  | .send =>
    if w.inMessage then .ok { w with inMessage := false, dataFreed := w.dataFreed + 1 }
    else .error .disabled

/-- The pointers that are sent and not closed, and those that are still to be sent. -/
def pending (w : Packaged) : ℕ :=
  w.sent + w.opened + match w.pc with
    | .redirect left => left
    | .command | .close => 1
    | .unpack | .tostring | .forward _ | .done => 0

end Packaged

/-- The accounting of a package: nothing is read after it was freed, no reference is negative,
neither the package nor its data are freed twice or before the last pointer is closed, and both are
freed when this has happened and `publish` is done. -/
structure Accounted (w : Packaged) : Prop where
  fault : w.fault = none
  freed_le : w.freed ≤ 1
  dataFreed_le : w.dataFreed ≤ 1
  late : w.freed ≠ 0 ∨ w.dataFreed ≠ 0 → w.sent = 0 ∧ w.opened = 0
  released : w.pc = .done → w.sent = 0 → w.opened = 0 →
    w.freed = 1 ∧ (w.inMessage = false → w.dataFreed = 1)

/-- The channel has a subscriber on its own node, a subscriber has not closed its pointer when the
package is read to be forwarded, and no subscriber ends with a pointer in its mailbox. -/
def Kept (p : Publication) (w : Packaged) : PackageEvent → Prop
  | .publish => match w.pc with
    | .command => p.owned → ∀ n, p.group = some n → 0 < n
    | .unpack | .tostring => 0 < w.sent + w.opened
    | .close | .redirect _ | .forward _ | .done => True
  | .drop => False
  | .unpack | .close | .send => True

/-! ### The invariant -/

/-- The package before the command, with references, after the last one was given up, and with its
data in a message. -/
inductive PackageInv : Packaged → Prop
  | fresh : PackageInv .init
  | referenced {w : Packaged} (hpc : w.pc ≠ .command) (hreference : w.reference = w.pending)
      (hpos : 0 < w.pending) (hfreed : w.freed = 0) (hdata : w.dataFreed = 0)
      (hmessage : w.inMessage = false) (hfault : w.fault = none) : PackageInv w
  | released {w : Packaged} (hpc : w.pc ≠ .command) (hpending : w.pending = 0) (hfreed : w.freed = 1)
      (hdata : w.dataFreed = if w.inMessage then 0 else 1) (hfault : w.fault = none) : PackageInv w

namespace PackageInv

variable {p : Publication} {w w' : Packaged}

theorem access_eq (hfreed : w.freed = 0) (hdata : w.dataFreed = 0) (f : Packaged → Packaged) :
    w.access f = f w :=
  if_pos ⟨hfreed, hdata⟩

/-- `mc.close` of one of the pointers that there are. -/
theorem close_eq (hreference : w.reference = w.pending) (hpos : 0 < w.pending)
    (hfreed : w.freed = 0) (hdata : w.dataFreed = 0) :
    w.close = if w.pending = 1 then
        { w with reference := w.reference - 1, freed := w.freed + 1, dataFreed := w.dataFreed + 1 }
      else { w with reference := w.reference - 1 } := by
  rw [Packaged.close, access_eq hfreed hdata]
  dsimp only
  by_cases hlast : w.pending = 1
  · rw [if_pos (by omega), if_neg (by omega), if_pos hlast]
  · rw [if_neg (by omega), if_neg hlast]

/-- A pointer is closed, by a subscriber or for a dead channel. -/
theorem close {pc : PublishPc} {opened : ℕ} (hreference : w.reference = w.pending)
    (hpos : 0 < w.pending) (hfreed : w.freed = 0) (hdata : w.dataFreed = 0)
    (hmessage : w.inMessage = false) (hfault : w.fault = none) (hpc : pc ≠ .command)
    (hnext : { w with pc, opened }.pending + 1 = w.pending) :
    PackageInv { w.close with pc, opened } := by
  rw [close_eq hreference hpos hfreed hdata]
  split_ifs with hlast
  · refine .released hpc ?_ ?_ ?_ hfault
    · change { w with pc, opened }.pending = 0
      omega
    · change w.freed + 1 = 1
      rw [hfreed]
    · change w.dataFreed + 1 = if w.inMessage then 0 else 1
      rw [hdata, hmessage]
      rfl
  · have hpending : { w with pc, opened }.pending = w.pending - 1 := by omega
    refine .referenced hpc ?_ ?_ hfreed hdata hmessage hfault
    · change w.reference - 1 = ({ w with pc, opened }.pending : ℤ)
      omega
    · change 0 < { w with pc, opened }.pending
      omega

/-- The publishing service and the subscribers go on without a use of the package, or with one while
there are references. -/
theorem keep {pc : PublishPc} {sent opened : ℕ} (h : PackageInv w) (hcommand : w.pc ≠ .command)
    (hpc : pc ≠ .command) (hpending : { w with pc, sent, opened }.pending = w.pending) :
    PackageInv { w with pc, sent, opened } := by
  cases h with
  | fresh => exact absurd rfl hcommand
  | referenced _ hreference hpos hfreed hdata hmessage hfault =>
    refine .referenced hpc ?_ ?_ hfreed hdata hmessage hfault
    · rw [hpending]
      exact hreference
    · rw [hpending]
      exact hpos
  | released _ hzero hfreed hdata hfault =>
    exact .released hpc (hpending.trans hzero) hfreed hdata hfault

/-- There are references as long as there are pointers. -/
theorem access {f : Packaged → Packaged} (h : PackageInv w) (hcommand : w.pc ≠ .command)
    (hpos : 0 < w.pending) : w.access f = f w := by
  cases h with
  | fresh => exact absurd rfl hcommand
  | referenced _ _ _ hfreed hdata => exact access_eq hfreed hdata f
  | released _ hzero => omega

theorem eq_init (h : PackageInv w) (hpc : w.pc = .command) : w = .init := by
  cases h with
  | fresh => rfl
  | referenced hne | released hne => exact absurd hpc hne

/-- The first step: the package is bound, or its data goes into a message. -/
theorem command (hok : Kept p .init .publish) (hstep : Packaged.init.publish p = .ok w') :
    PackageInv w' := by
  change (if p.owned then _ else _) = _ at hstep
  split at hstep
  next howned =>
    cases hgroup : p.group with
    | none =>
      rw [hgroup] at hstep
      cases hstep
      exact .referenced (by decide) rfl (by decide) rfl rfl rfl rfl
    | some n =>
      rw [hgroup] at hstep
      cases hstep
      have hpending : { Packaged.init.bind n with pc := .redirect n }.pending = n := Nat.zero_add n
      refine .referenced nofun ?_ ?_ rfl rfl rfl rfl
      · rw [hpending]
        rfl
      · rw [hpending]
        exact hok howned n hgroup
  next =>
    cases hstep
    exact .released (by decide) rfl rfl rfl rfl

theorem publish (h : PackageInv w) (hok : Kept p w .publish) (hstep : w.publish p = .ok w') :
    PackageInv w' := by
  by_cases hcommand : w.pc = .command
  · obtain rfl := h.eq_init hcommand
    exact command hok hstep
  unfold Packaged.publish at hstep
  unfold Kept at hok
  cases hpc : w.pc with
  | command => exact absurd hpc hcommand
  | close =>
    rw [hpc] at hstep
    cases hstep
    have hpending : w.pending = w.sent + w.opened + 1 := by rw [Packaged.pending, hpc]
    cases h with
    | fresh => exact absurd rfl hcommand
    | referenced _ hreference hpos hfreed hdata hmessage hfault =>
      have hopened : w.close.opened = w.opened := by
        rw [close_eq hreference hpos hfreed hdata]
        split_ifs <;> rfl
      refine close hreference hpos hfreed hdata hmessage hfault (by decide) ?_
      rw [hopened]
      exact hpending.symm
    | released _ hzero => omega
  | redirect left =>
    have hpending : w.pending = w.sent + w.opened + left := by rw [Packaged.pending, hpc]
    rw [hpc] at hstep
    cases left with
    | zero =>
      cases hstep
      refine h.keep hcommand ?_ ?_
      · split <;> decide
      · rw [hpending]
        split <;> rfl
    | succ left =>
      cases hstep
      refine h.keep hcommand nofun ?_
      rw [hpending]
      change w.sent + 1 + w.opened + left = _
      omega
  | unpack =>
    have hpending : w.pending = w.sent + w.opened := by rw [Packaged.pending, hpc]; rfl
    rw [hpc] at hstep hok
    cases hstep
    rw [h.access hcommand (by rw [hpending]; exact hok)]
    exact h.keep hcommand (by decide) hpending.symm
  | tostring =>
    have hpending : w.pending = w.sent + w.opened := by rw [Packaged.pending, hpc]; rfl
    rw [hpc] at hstep hok
    cases hstep
    rw [h.access hcommand (by rw [hpending]; exact hok)]
    exact h.keep hcommand nofun hpending.symm
  | forward left =>
    have hpending : w.pending = w.sent + w.opened := by rw [Packaged.pending, hpc]; rfl
    rw [hpc] at hstep
    cases left with
    | zero | succ left =>
      cases hstep
      exact h.keep hcommand nofun hpending.symm
  | done =>
    rw [hpc] at hstep
    cases hstep

/-- **Every step that is kept to keeps the invariant.** -/
theorem step (h : PackageInv w) {e : PackageEvent} (hok : Kept p w e)
    (hstep : w.step p e = .ok w') : PackageInv w' := by
  have hcommand (hpos : 0 < w.sent ∨ 0 < w.opened) : w.pc ≠ .command := fun hpc => by
    rw [h.eq_init hpc] at hpos
    exact hpos.elim (Nat.lt_irrefl 0) (Nat.lt_irrefl 0)
  cases e with
  | publish => exact h.publish hok hstep
  | unpack =>
    by_cases hpos : 0 < w.sent
    · obtain rfl := Except.ok.inj ((if_pos hpos).symm.trans hstep)
      have hpending : { w with sent := w.sent - 1, opened := w.opened + 1 }.pending =
          w.pending := by
        simp only [Packaged.pending]
        omega
      rw [h.access (hcommand (.inl hpos)) (by rw [Packaged.pending]; omega)]
      exact h.keep (hcommand (.inl hpos)) (hcommand (.inl hpos)) hpending
    · cases (if_neg hpos).symm.trans hstep
  | close =>
    by_cases hpos : 0 < w.opened
    · obtain rfl := Except.ok.inj ((if_pos hpos).symm.trans hstep)
      have hpending : { w with opened := w.opened - 1 }.pending + 1 = w.pending := by
        simp only [Packaged.pending]
        omega
      have hne := hcommand (.inr hpos)
      cases h with
      | fresh => exact absurd rfl hne
      | referenced _ hreference hlt hfreed hdata hmessage hfault =>
        have hpc : w.close.pc = w.pc := by
          rw [close_eq hreference hlt hfreed hdata]
          split_ifs <;> rfl
        refine close hreference hlt hfreed hdata hmessage hfault (hpc ▸ hne) ?_
        rw [hpc]
        exact hpending
      | released _ hzero => omega
    · cases (if_neg hpos).symm.trans hstep
  | drop => exact hok.elim
  | send =>
    by_cases hmessage : w.inMessage = true
    · obtain rfl := Except.ok.inj ((if_pos hmessage).symm.trans hstep)
      cases h with
      | fresh => cases hmessage
      | referenced _ _ _ _ _ hnot => rw [hnot] at hmessage; cases hmessage
      | released hpc hpending hfreed hdata hfault =>
        rw [if_pos hmessage] at hdata
        refine .released hpc hpending hfreed ?_ hfault
        change w.dataFreed + 1 = 1
        rw [hdata]
    · cases (if_neg hmessage).symm.trans hstep

theorem isAccounted (h : PackageInv w) : Accounted w := by
  cases h with
  | fresh => exact ⟨rfl, Nat.zero_le _, Nat.zero_le _, fun h => by simp [Packaged.init] at h, nofun⟩
  | referenced _ _ hpos hfreed hdata _ hfault =>
    refine ⟨hfault, by omega, by omega, fun h => by omega, fun hdone hsent hopened => ?_⟩
    rw [Packaged.pending, hsent, hopened, hdone] at hpos
    exact absurd hpos (Nat.lt_irrefl 0)
  | released _ hzero hfreed hdata hfault =>
    rw [Packaged.pending] at hzero
    refine ⟨hfault, by omega, ?_, fun _ => by omega, fun _ _ _ => ⟨hfreed, fun hmessage => ?_⟩⟩
    · rw [hdata]
      split <;> decide
    · rw [hdata, hmessage]
      rfl

end PackageInv

end Mtask.Multicast
