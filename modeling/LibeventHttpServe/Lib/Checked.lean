import Mathlib.Data.List.Basic

/-!
# Buffers with checked accesses

A read or a write outside a buffer, and a subtraction of lengths that would
wrap, is a fault. A function that returns `.ok` on every input makes no such
access.
-/

namespace LibeventHttpServe.Lib

inductive Fault where
  | read
  | write
  | wrap
  deriving DecidableEq, Repr

abbrev Checked (α : Type) := Except Fault α

variable {α β : Type}

def readAt (buf : List α) (i : ℕ) : Checked α :=
  match buf[i]? with
  | some x => .ok x
  | none => .error .read

def writeAt (buf : List α) (i : ℕ) (x : α) : Checked (List α) :=
  if i < buf.length then .ok (buf.set i x) else .error .write

/-- `memcpy(buf, src, n)` from the start of both. -/
def copyTo (buf src : List α) (n : ℕ) : Checked (List α) :=
  if src.length < n then .error .read
  else if buf.length < n then .error .write
  else .ok (src.take n ++ buf.drop n)

/-- The first `n` elements, all of them read. -/
def readN (buf : List α) (n : ℕ) : Checked (List α) :=
  if buf.length < n then .error .read else .ok (buf.take n)

def subLen (a b : ℕ) : Checked ℕ := if b ≤ a then .ok (a - b) else .error .wrap

/-- The text in a buffer: the bytes up to the first NUL. -/
def cString (buf : List UInt8) : List UInt8 := buf.takeWhile (· != 0)

@[simp] theorem ok_bind (x : α) (f : α → Checked β) : ((.ok x : Checked α) >>= f) = f x := rfl

@[simp] theorem pure_eq_ok (x : α) : (pure x : Checked α) = .ok x := rfl

theorem readAt_ok {buf : List α} {i : ℕ} {x : α} (h : buf[i]? = some x) :
    readAt buf i = .ok x := by
  simp only [readAt, h]

theorem readAt_eq {buf : List α} {i : ℕ} {x : α} (h : readAt buf i = .ok x) :
    buf[i]? = some x := by
  unfold readAt at h
  split at h
  · cases h
    assumption
  · cases h

theorem subLen_ok {a b : ℕ} (h : b ≤ a) : subLen a b = .ok (a - b) := if_pos h

theorem writeAt_ok {buf : List α} {i : ℕ} (h : i < buf.length) (x : α) :
    writeAt buf i x = .ok (buf.set i x) := if_pos h

theorem writeAt_eq {buf out : List α} {i : ℕ} {x : α} (h : writeAt buf i x = .ok out) :
    out = buf.set i x := by
  unfold writeAt at h
  split at h
  · exact (Except.ok.inj h).symm
  · cases h

theorem copyTo_ok {buf src : List α} {n : ℕ} (hs : n ≤ src.length) (hb : n ≤ buf.length) :
    copyTo buf src n = .ok (src.take n ++ buf.drop n) := by
  rw [copyTo, if_neg (by omega), if_neg (by omega)]

end LibeventHttpServe.Lib
