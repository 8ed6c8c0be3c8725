import Mathlib.Data.Int.Notation
import Mathlib.Data.Nat.Notation

/-!
# Messages

The message of `mtask_mq.h`, as the mailboxes and the timer carry it. The type of a message is in
the high byte of its size.
-/

namespace Mtask

/-- `PTYPE_TEXT` -/
def ptypeText : ℕ := 0

/-- `PTYPE_RESPONSE` -/
def ptypeResponse : ℕ := 1

/-- `PTYPE_ERROR` -/
def ptypeError : ℕ := 7

/-- `PTYPE_TAG_DONTCOPY` -/
def ptypeTagDontcopy : ℕ := 0x10000

/-- `MESSAGE_TYPE_SHIFT`, for a `size_t` of eight bytes. -/
def messageTypeShift : ℕ := 56

/-- `struct mtask_message`; `data` is the address of the payload, `none` for `NULL`. -/
structure MtaskMessage where
  source : ℕ
  session : ℤ
  data : Option ℕ
  sz : ℕ
  deriving DecidableEq, Repr

/-- A message without a payload. -/
def MtaskMessage.ofType (source : ℕ) (type : ℕ) (session : ℤ) : MtaskMessage where
  source := source
  session := session
  data := none
  sz := type <<< messageTypeShift

end Mtask
