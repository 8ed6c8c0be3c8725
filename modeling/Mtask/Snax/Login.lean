import Mathlib.Logic.Function.Basic
import Mtask.Crypt.Base64
import Mtask.Crypt.DesText
import Mtask.Crypt.DiffieHellman
import Mtask.Lib.Transition

/-!
# The login server

A slave of the login server leads a client through the handshake: a challenge, an exchange of keys,
the answer to the challenge, and the token, encrypted with the common secret. The master runs the
handlers of several clients at the same time, and `user_login` has the users whose `login_handler`
has not returned.

The lines are without their ends, and what the client sends behind the limit of the socket is not
among them. The code of a message under the two keys of `hmac64` is a parameter.
-/

namespace Mtask.Snax.Login

open Crypt
open Function (update update_apply update_of_ne update_self)

abbrev Bytes := List UInt8

/-! ### The handshake -/

/-- An error of one of the two sides. -/
inductive Failure
  /-- `socket_error`, or `"Server closed"` -/
  | closed
  /-- `error "Invalid client key"` -/
  | invalidKey
  /-- `error "challenge failed"` -/
  | challengeFailed
  | text (fault : TextFault)
  | crypt (fault : CryptFault)

/-- A connection: what comes until the other side closes it, what has been written, and how much
can be written until this side finds it closed. -/
structure Conn where
  lines : List Bytes
  written : List Bytes
  room : ℕ

abbrev Side := ExceptT Failure (StateM Conn)

/-- `assert_socket("auth", socket.readline(fd), fd)` -/
def readline : Side Bytes := fun c =>
  match c.lines with
  | [] => (.error .closed, c)
  | line :: lines => (.ok line, { c with lines })

/-- `write("auth", fd, text)` -/
def write (line : Bytes) : Side Unit := fun c =>
  if c.room = 0 then (.error .closed, c)
  else (.ok (), { c with written := c.written ++ [line], room := c.room - 1 })

/-- A call of the library that may raise an error. -/
def call {ε α : Type} (failure : ε → Failure) (result : Except ε α) : Side α := fun c =>
  match result with
  | .ok a => (.ok a, c)
  | .error e => (.error (failure e), c)

variable (depth : ℕ) (hmac64 : Bytes → Bytes → Bytes)

/-- `auth`: the token and the secret. -/
def auth (challenge serverkey : Bytes) : Side (Bytes × Bytes) := do
  write (← call .text (lb64encode challenge))
  let clientkey ← call .text (lb64decode (← readline))
  if clientkey.length ≠ 8 then throw .invalidKey
  write (← call .text (lb64encode (← call .crypt (ldhexchange depth serverkey))))
  let secret ← call .crypt (ldhsecret depth clientkey serverkey)
  let response ← readline
  let hmac := hmac64 challenge secret
  if hmac ≠ (← call .text (lb64decode response)) then
    write "400 Bad Request".toUTF8.toList
    throw .challengeFailed
  let etoken ← readline
  let token ← call .text (ldesdecode secret (← call .text (lb64decode etoken)))
  return (token, secret)

/-- The client: the secret. -/
def client (clientkey token : Bytes) : Side Bytes := do
  let challenge ← call .text (lb64decode (← readline))
  write (← call .text (lb64encode (← call .crypt (ldhexchange depth clientkey))))
  let secret ← call .crypt (ldhsecret depth (← call .text (lb64decode (← readline))) clientkey)
  write (← call .text (lb64encode (hmac64 challenge secret)))
  let etoken ← call .text (ldesencode secret token)
  write (← call .text (lb64encode etoken))
  return secret

section Run

variable {α β : Type} {c : Conn} {line : Bytes} {f : Bytes → Side β}

theorem run_readline {lines written : List Bytes} {room : ℕ} :
    (readline >>= f) ⟨line :: lines, written, room⟩ = f line ⟨lines, written, room⟩ := rfl

theorem run_write {g : Unit → Side β} {lines written : List Bytes} {room : ℕ} :
    (write line >>= g) ⟨lines, written, room + 1⟩ = g () ⟨lines, written ++ [line], room⟩ := rfl

theorem run_call {ε : Type} {failure : ε → Failure} {result : Except ε α} {a : α} {g : α → Side β}
    (h : result = .ok a) : (call failure result >>= g) c = g a c := by
  rw [h]
  rfl

end Run

theorem exists_base64 {s : Bytes} (hs : s.length < 2 ^ 30) :
    ∃ e, lb64encode s = .ok e ∧ lb64decode e = .ok s := by
  obtain ⟨hend, hbytes⟩ := decode_encodeGroups s
  have hlen : encodeSz s.length ≤ intMax := by
    rw [intMax, encodeSz]
    omega
  exact ⟨encodeGroups s, if_neg (Nat.not_lt.mpr hlen),
    lb64decode_ok_iff.mpr ⟨hend, hbytes, (length_encodeGroups s).trans_le hlen⟩⟩

variable {depth hmac64}

section Master

variable {υ : Type*} [DecidableEq υ]

/-- Where a call of `accept` is: the slave has been called, `login_handler` has been called for a
user, or the call has ended, with what it writes. A user that is `nil` is `none`. -/
inductive Attempt (υ : Type*)
  | calling
  | handling (uid : Option υ)
  | ended (line : Option String)

/-- The calls of `accept` by their connection, and `user_login`. -/
structure Master (υ : Type*) where
  attempt : ℕ → Option (Attempt υ)
  userLogin : υ → Bool

/-- A client comes, the slave returns, or `login_handler` returns or raises an error. -/
inductive Event (υ : Type*)
  | accepted (fd : ℕ)
  | socketError (fd : ℕ)
  | refused (fd : ℕ)
  | authed (fd : ℕ) (uid : Option υ)
  | handled (fd : ℕ) (ok : Bool)

namespace Master

variable (multilogin : Bool)

def init : Master υ := ⟨fun _ => none, fun _ => false⟩

/-- `accept` goes on, or ends. -/
def move (m : Master υ) (fd : ℕ) (a : Attempt υ) : Master υ :=
  { m with attempt := update m.attempt fd (some a) }

/-- What follows the call of the slave. An index that is `nil` raises an error. -/
def authed (m : Master υ) (fd : ℕ) (uid : Option υ) : Master υ :=
  if multilogin then m.move fd (.handling uid)
  else
    match uid with
    | none => m.move fd (.ended none)
    | some u =>
      if m.userLogin u then m.move fd (.ended (some "406 Not Acceptable"))
      else { m with userLogin := update m.userLogin u true }.move fd (.handling uid)

/-- What follows the call of `login_handler`. -/
def handled (m : Master υ) (fd : ℕ) (uid : Option υ) (ok : Bool) : Master υ :=
  match uid with
  | none => m.move fd (.ended none)
  | some u =>
    { m with userLogin := update m.userLogin u false }.move fd
      (.ended (some (if ok then "200" else "403 Forbidden")))

/-- One step of the master. -/
def step (m : Master υ) : Event υ → Except Unit (Master υ)
  | .accepted fd =>
    match m.attempt fd with
    | none => .ok (m.move fd .calling)
    | some _ => .error ()
  | .socketError fd =>
    match m.attempt fd with
    | some .calling => .ok (m.move fd (.ended none))
    | _ => .error ()
  | .refused fd =>
    match m.attempt fd with
    | some .calling => .ok (m.move fd (.ended (some "401 Unauthorized")))
    | _ => .error ()
  | .authed fd uid =>
    match m.attempt fd with
    | some .calling => .ok (m.authed multilogin fd uid)
    | _ => .error ()
  | .handled fd ok =>
    match m.attempt fd with
    | some (.handling uid) => .ok (m.handled fd uid ok)
    | _ => .error ()

/-- The users in `user_login` are those for whom `login_handler` has been called and has not
returned, each of them once. -/
structure Exclusive (m : Master υ) : Prop where
  locked : ∀ u, m.userLogin u = true ↔ ∃ fd, m.attempt fd = some (.handling (some u))
  unique : ∀ fd fd' u, m.attempt fd = some (.handling (some u)) →
    m.attempt fd' = some (.handling (some u)) → fd = fd'

/-- The call that has put a user into `user_login`. -/
structure HeldBy (m : Master υ) (holder : υ → Option ℕ) : Prop where
  attempt : ∀ fd u, m.attempt fd = some (.handling (some u)) ↔ holder u = some fd
  userLogin : ∀ u, m.userLogin u = (holder u).isSome

variable {m m' : Master υ} {fd : ℕ}

namespace HeldBy

variable {holder : υ → Option ℕ} (h : HeldBy m holder)
include h

omit [DecidableEq υ] in
/-- A call that holds no user goes on without one. -/
theorem move (hfd : ∀ u, m.attempt fd ≠ some (.handling (some u))) {a : Attempt υ}
    (ha : ∀ u, a ≠ .handling (some u)) : HeldBy (m.move fd a) holder where
  attempt fd' u := by
    rw [← h.attempt]
    simp only [Master.move, update_apply]
    split_ifs with heq
    · simp [heq, hfd, ha]
    · rfl
  userLogin := h.userLogin

theorem authed (hfd : m.attempt fd = some .calling) (uid : Option υ) :
    ∃ holder', HeldBy (m.authed false fd uid) holder' := by
  have hnone (u : υ) : m.attempt fd ≠ some (.handling (some u)) := by simp [hfd]
  cases uid with
  | none => exact ⟨holder, h.move hnone (by simp)⟩
  | some u =>
    simp only [Master.authed, Bool.false_eq_true, if_false]
    split_ifs with hu
    · exact ⟨holder, h.move hnone (by simp)⟩
    · have hfree : holder u = none := by simpa [h.userLogin] using hu
      refine ⟨update holder u (some fd), fun fd' u' => ?_, fun u' => ?_⟩
      · have hattempt := h.attempt fd' u'
        simp only [Master.move, update_apply]
        grind
      · have hlogin := h.userLogin u'
        simp only [Master.move, update_apply]
        grind

theorem handled {uid : Option υ} (hfd : m.attempt fd = some (.handling uid)) (ok : Bool) :
    ∃ holder', HeldBy (m.handled fd uid ok) holder' := by
  cases uid with
  | none => exact ⟨holder, h.move (by simp [hfd]) (by simp)⟩
  | some u =>
    have hheld := (h.attempt fd u).mp hfd
    refine ⟨update holder u none, fun fd' u' => ?_, fun u' => ?_⟩
    · have hattempt := h.attempt fd' u'
      simp only [Master.handled, Master.move, update_apply]
      grind
    · have hlogin := h.userLogin u'
      simp only [Master.handled, Master.move, update_apply]
      grind

theorem step {e : Event υ} (hs : m.step false e = .ok m') : ∃ holder', HeldBy m' holder' := by
  cases e with
  | accepted fd | socketError fd | refused fd =>
    simp only [Master.step] at hs
    split at hs <;> cases hs
    next hfd => exact ⟨holder, h.move (by simp [hfd]) (by simp)⟩
  | authed fd uid =>
    simp only [Master.step] at hs
    split at hs <;> cases hs
    next hfd => exact h.authed hfd uid
  | handled fd ok =>
    simp only [Master.step] at hs
    split at hs <;> cases hs
    next uid hfd => exact h.handled hfd ok

end HeldBy

/-- **No user logs in twice at a time**, and whoever is in `user_login` is logging in. -/
theorem login_exclusive
    (h : Transition.Reaches (step false) (fun _ _ => True) (init : Master υ) m) : Exclusive m := by
  have hstep (m m' : Master υ) (e : Event υ) (hm : ∃ holder, HeldBy m holder) (_ : True)
      (hs : m.step false e = .ok m') : ∃ holder, HeldBy m' holder :=
    hm.elim fun _ hm => hm.step hs
  obtain ⟨holder, hheld⟩ := h.invariant ⟨fun _ => none, by simp [init], fun _ => rfl⟩ hstep
  refine ⟨fun u => ?_, fun fd fd' u h₁ h₂ => ?_⟩
  · rw [hheld.userLogin, Option.isSome_iff_exists]
    exact exists_congr fun fd => (hheld.attempt fd u).symm
  · exact Option.some.inj (((hheld.attempt fd u).mp h₁).symm.trans ((hheld.attempt fd' u).mp h₂))

/-- Two clients log in as one user, and a third one when the first one has done so. -/
theorem login_exclusive_again : ∃ m : Master ℕ, Exclusive m ∧ m.userLogin 7 = true ∧
    m.attempt 1 = some (.ended (some "200")) ∧
    m.attempt 2 = some (.ended (some "406 Not Acceptable")) ∧
    m.attempt 3 = some (.handling (some 7)) :=
  ⟨_, login_exclusive (Transition.reaches_of_exec (l := [.accepted 1, .accepted 2,
    .authed 1 (some 7), .authed 2 (some 7), .handled 1 true, .accepted 3, .authed 3 (some 7)]) rfl
    fun _ _ _ => trivial), rfl, rfl, rfl, rfl⟩

end Master

end Master

end Mtask.Snax.Login
