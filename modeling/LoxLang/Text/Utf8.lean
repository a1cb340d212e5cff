/-!
# Decoding UTF-8

`decode` turns bytes into text or says where the first fault is: at `start` begins a sequence that
is no character, and `length` of its bytes could not have gone on to form one. A character cut off
by the end of the input has no such length.
-/

namespace LoxLang.Text

/-- Where bytes stop being UTF-8. -/
structure Utf8Fault where
  start : Nat
  length : Option Nat
deriving DecidableEq, Repr

/-- The second byte that may follow a first byte, and how many bytes follow it in all. -/
def continuation? (first : Nat) : Option (Nat × Nat × Nat) :=
  if 0xC2 ≤ first ∧ first ≤ 0xDF then some (0x80, 0xBF, 1)
  else if first = 0xE0 then some (0xA0, 0xBF, 2)
  else if first = 0xED then some (0x80, 0x9F, 2)
  else if 0xE1 ≤ first ∧ first ≤ 0xEF then some (0x80, 0xBF, 2)
  else if first = 0xF0 then some (0x90, 0xBF, 3)
  else if 0xF1 ≤ first ∧ first ≤ 0xF3 then some (0x80, 0xBF, 3)
  else if first = 0xF4 then some (0x80, 0x8F, 3)
  else none

/-- The character that begins with bits `bits` and goes on with `count` bytes, the first of them
between `low` and `high`; or the number of bytes that fit, `none` where the input ends. -/
def continued (bits seen low high : Nat) : (count : Nat) → List UInt8 → Except (Option Nat) Nat
  | 0, _ => .ok bits
  | _ + 1, [] => .error none
  | count + 1, b :: bs =>
    if low ≤ b.toNat ∧ b.toNat ≤ high then
      continued (64 * bits + b.toNat % 64) (seen + 1) 0x80 0xBF count bs
    else .error (some seen)

/-- The character at the front of `first :: rest` and the number of bytes of `rest` it takes, or
how many bytes are at fault. -/
def character (first : UInt8) (rest : List UInt8) : Except (Option Nat) (Char × Nat) :=
  let f := first.toNat
  if f < 0x80 then .ok (.ofNat f, 0)
  else match continuation? f with
    | none => .error (some 1)
    | some (low, high, count) =>
      let lead := f % Nat.pow 2 (6 - count)
      match continued lead 1 low high count rest with
      | .ok bits => .ok (.ofNat bits, count)
      | .error fault => .error fault

/-- The characters of the bytes, the first of which stands at `start`, put behind `done`; the
latest first. -/
def decodeFrom (start : Nat) (bytes : List UInt8) (done : List Char) :
    Except Utf8Fault (List Char) :=
  match bytes with
  | [] => .ok done
  | b :: bs =>
    match character b bs with
    | .ok (c, count) => decodeFrom (start + count + 1) (bs.drop count) (c :: done)
    | .error length => .error ⟨start, length⟩
termination_by bytes.length
decreasing_by simp only [List.length_drop, List.length_cons]; omega

/-- The text the bytes encode. -/
def decode (bytes : ByteArray) : Except Utf8Fault String :=
  (decodeFrom 0 bytes.toList []).map fun cs => String.ofList cs.reverse

/-- The text the bytes encode, with a replacement character for each sequence at fault. -/
def decodeLossy (bytes : List UInt8) : List Char :=
  match bytes with
  | [] => []
  | b :: bs =>
    match character b bs with
    | .ok (c, count) => c :: decodeLossy (bs.drop count)
    | .error (some length) => '\ufffd' :: decodeLossy (bs.drop (length - 1))
    | .error none => ['\ufffd']
termination_by bytes.length
decreasing_by all_goals simp only [List.length_drop, List.length_cons]; omega

/-- What a fault is called. -/
def Utf8Fault.message (f : Utf8Fault) : String :=
  match f.length with
  | some n =>
    "invalid utf-8 sequence of " ++ toString n ++ " bytes from index " ++ toString f.start
  | none => "incomplete utf-8 byte sequence from index " ++ toString f.start

end LoxLang.Text
