import Geth.Rlp.Writer
import Geth.Rlp.Stream

namespace Geth.Rlp.Reader

open Lib.BigEndian Encode Writer
open Rlp.Stream (Kind)

inductive StreamError where
  | eof | eol | unexpectedEOF | valueTooLarge | elemTooLarge | canonSize | canonInt | expectedString
  | expectedList | uintOverflow | notInList | notAtEOL | tooFewElements | tooLong | tooShort
  | invalidBool | moreThanOneValue | noReturn
  deriving DecidableEq

/-- `remaining` counts what may be read at all, `stack` what is left of the
lists around, innermost first. Once the header of a value was read, `ahead` is
its kind and size. -/
structure Stream where
  input : Bytes
  remaining : UInt64
  stack : List UInt64
  ahead : Option (Kind × UInt64)

namespace Stream

/-- The limits after a read. Those of the lists can wrap around. -/
def lower (s : Stream) (n : UInt64) : Stream :=
  { s with remaining := s.remaining - n, stack := s.stack.modifyHead (· - n), ahead := none }

def willRead (s : Stream) (n : UInt64) : Except StreamError Stream :=
  if s.stack.head?.any (· < n) then .error .elemTooLarge
  else if s.remaining < n then .error .valueTooLarge
  else .ok (s.lower n)

def readFull (s : Stream) (n : UInt64) : Except StreamError (Bytes × Stream) := do
  let s ← s.willRead n
  if n.toNat ≤ s.input.length then
    return (s.input.take n.toNat, { s with input := s.input.drop n.toNat })
  else .error .unexpectedEOF

def readByte (s : Stream) : Except StreamError (UInt8 × Stream) := do
  let s ← s.willRead 1
  match s.input with
  | b :: rest => return (b, { s with input := rest })
  | [] => .error .unexpectedEOF

def readUint (s : Stream) (size : ℕ) : Except StreamError (UInt64 × Stream) :=
  match size with
  | 0 => .ok (0, { s with ahead := none })
  | 1 => do
    let (b, s) ← s.readByte
    return (UInt64.ofNat b.toNat, s)
  | size => do
    let (b, s) ← s.readFull (UInt64.ofNat size)
    if b.head? = some 0 then .error .canonSize else return (UInt64.ofNat (beNat b), s)

def readLongSize (s : Stream) (k : Kind) (size : ℕ) : Except StreamError ((Kind × UInt64) × Stream) := do
  let (n, s) ← s.readUint size
  if n < 56 then .error .canonSize else return ((k, n), s)

/-- At top level a missing byte is the end of the input. -/
def atTop (s : Stream) : StreamError → StreamError
  | .unexpectedEOF => if s.stack = [] then .eof else .unexpectedEOF
  | .valueTooLarge => if s.stack = [] then .eof else .valueTooLarge
  | e => e

def readKind (s : Stream) : Except StreamError ((Kind × UInt64) × Stream) := do
  let (b, s) ← s.readByte.mapError s.atTop
  if b.toNat < 0x80 then return ((.byte b, 0), s)
  else if b.toNat < 0xB8 then return ((.string, UInt64.ofNat (b.toNat - 0x80)), s)
  else if b.toNat < 0xC0 then s.readLongSize .string (b.toNat - 0xB7)
  else if b.toNat < 0xF8 then return ((.list, UInt64.ofNat (b.toNat - 0xC0)), s)
  else s.readLongSize .list (b.toNat - 0xF7)

/-- The size of the value ahead is checked against the limit of the list before
its header was read, and against the rest of the input after that. -/
def kind (s : Stream) : Except StreamError ((Kind × UInt64) × Stream) :=
  match s.ahead with
  | some k => .ok (k, s)
  | none =>
    if s.stack.head? = some 0 then .error .eol
    else do
      let (k, s') ← s.readKind
      if s.stack.head?.any (· < k.2) then .error .elemTooLarge
      else if s'.remaining < k.2 then .error .valueTooLarge
      else return (k, { s' with ahead := some k })

def rearm (s : Stream) : Stream := { s with ahead := none }

def bytes (s : Stream) : Except StreamError (Bytes × Stream) := do
  let ((k, size), s) ← s.kind
  match k with
  | .byte b => return ([b], s.rearm)
  | .string => do
    let (b, s) ← s.readFull size
    if size = 1 ∧ b.head?.any (· < 128) then .error .canonSize else return (b, s)
  | .list => .error .expectedString

/-- The error for a size is one for an integer here. -/
def asInt : StreamError → StreamError
  | .canonSize => .canonInt
  | e => e

def uint (s : Stream) (maxbits : ℕ) : Except StreamError (UInt64 × Stream) := do
  let ((k, size), s) ← s.kind
  match k with
  | .byte b => if b = 0 then .error .canonInt else return (UInt64.ofNat b.toNat, s.rearm)
  | .string =>
    if maxbits / 8 < size.toNat then .error .uintOverflow
    else do
      let (v, s) ← (s.readUint size.toNat).mapError asInt
      if 0 < size ∧ v < 128 then .error .canonSize else return (v, s)
  | .list => .error .expectedString

def bool (s : Stream) : Except StreamError (Bool × Stream) := do
  let (num, s) ← s.uint 8
  if num = 0 then return (false, s)
  else if num = 1 then return (true, s)
  else .error .invalidBool

def list (s : Stream) : Except StreamError (UInt64 × Stream) := do
  let ((k, size), s) ← s.kind
  match k with
  | .list => return (size, { s with stack := size :: s.stack.modifyHead (· - size), ahead := none })
  | _ => .error .expectedList

def listEnd (s : Stream) : Except StreamError Stream :=
  match s.stack with
  | [] => .error .notInList
  | limit :: stack => if 0 < limit then .error .notAtEOL else .ok { s with stack, ahead := none }

def decodeBigInt (s : Stream) : Except StreamError (ℤ × Stream) := do
  let ((k, size), s) ← s.kind
  match k with
  | .list => .error .expectedString
  | .byte b => if b = 0 then .error .canonInt else return ((b.toNat : ℤ), s.rearm)
  | .string =>
    if size = 0 then return (0, s.rearm)
    else do
      let (b, s) ← s.readFull size
      if size = 1 ∧ b.head?.any (· < 128) then .error .canonSize
      else if b.head? = some 0 then .error .canonInt
      else return ((beNat b : ℤ), s)

def decodeByteArray (s : Stream) (n : ℕ) : Except StreamError (Bytes × Stream) := do
  let ((k, size), s) ← s.kind
  match k with
  | .byte b => if n = 0 then .error .tooLong else if 1 < n then .error .tooShort else return ([b], s.rearm)
  | .string =>
    if n < size.toNat then .error .tooLong
    else if size.toNat < n then .error .tooShort
    else do
      let (b, s) ← s.readFull size
      if size = 1 ∧ b.head?.any (· < 128) then .error .canonSize else return (b, s)
  | .list => .error .expectedString

section

variable {α : Type}

def decodeSliceElems (elemdec : Stream → Except StreamError (α × Stream)) :
    ℕ → Stream → Except StreamError (List α × Stream)
  | 0, _ => .error .noReturn
  | fuel + 1, s =>
    match elemdec s with
    | .error .eol => .ok ([], s)
    | .error e => .error e
    | .ok (v, s) => do
      let (vs, s) ← decodeSliceElems elemdec fuel s
      return (v :: vs, s)

def decodeListSlice (elemdec : Stream → Except StreamError (α × Stream)) (s : Stream) :
    Except StreamError (List α × Stream) := do
  let (size, s) ← s.list
  if size = 0 then do
    let s ← s.listEnd
    return ([], s)
  else do
    let (vs, s) ← decodeSliceElems elemdec (s.input.length + 1) s
    let s ← s.listEnd
    return (vs, s)

def required (r : Except StreamError (α × Stream)) : Except StreamError (α × Stream) :=
  r.mapError fun e => if e = .eol then .tooFewElements else e

def decodeArrayElems (elemdec : Stream → Except StreamError (α × Stream)) :
    (n : ℕ) → Stream → Except StreamError (List.Vector α n × Stream)
  | 0, s => .ok (.nil, s)
  | n + 1, s => do
    let (v, s) ← required (elemdec s)
    let (vs, s) ← decodeArrayElems elemdec n s
    return (.cons v vs, s)

def decodeListArray (elemdec : Stream → Except StreamError (α × Stream)) (n : ℕ) (s : Stream) :
    Except StreamError (List.Vector α n × Stream) := do
  let (_, s) ← s.list
  let (vs, s) ← decodeArrayElems elemdec n s
  let s ← s.listEnd
  return (vs, s)

end

def decodeInterfaceWith (decodeList : Stream → Except StreamError (List Item × Stream)) (s : Stream) :
    Except StreamError (Item × Stream) := do
  let ((k, _), s) ← s.kind
  match k with
  | .list => do
    let (items, s) ← decodeList s
    return (.list items, s)
  | _ => do
    let (b, s) ← s.bytes
    return (.str b, s)

/-- Byte strings and lists of values. Lists are nested less deeply than the
input is long. -/
def decodeInterface : ℕ → Stream → Except StreamError (Item × Stream)
  | 0 => decodeInterfaceWith fun _ => .error .noReturn
  | fuel + 1 => decodeInterfaceWith (decodeListSlice (decodeInterface fuel))

end Stream

theorem map_length_eq {α : Type} (e : α ≃ UInt8) {n : ℕ} {b : Bytes} (h : b.length = n) :
    (b.map e.symm).length = n := by
  rw [List.length_map, h]

mutual

def decodeVal : (t : Ty) → Stream → Except StreamError (t.Val × Stream)
  | .iface, s => Stream.decodeInterface s.input.length s
  | .uint w, s => do
    let (v, s) ← s.uint w.bits
    return (BitVec.ofNat w.bits v.toNat, s)
  | .bigInt, s => s.decodeBigInt
  | .bool, s => s.bool
  | .string, s => s.bytes
  | .slice t, s =>
    match t.byte with
    | some e => do
      let (b, s) ← s.bytes
      return (b.map e.symm, s)
    | none => Stream.decodeListSlice (decodeVal t) s
  | .array n t, s =>
    match t.byte with
    | some e => do
      let (b, s) ← s.decodeByteArray n
      if h : b.length = n then return (⟨b.map e.symm, map_length_eq e h⟩, s) else .error .tooShort
    | none => Stream.decodeListArray (decodeVal t) n s
  | .struct fields, s => do
    let (_, s) ← s.list
    let (v, s) ← decodeFields fields s
    let s ← s.listEnd
    return (v, s)

def decodeFields : (fields : Fields) → Stream → Except StreamError (fields.Val × Stream)
  | .nil, s => .ok ((), s)
  | .cons t fields, s => do
    let (v, s) ← Stream.required (decodeVal t s)
    let (vs, s) ← decodeFields fields s
    return ((v, vs), s)

end

def newStream (b : Bytes) : Stream := ⟨b, UInt64.ofNat b.length, [], none⟩

def decodeBytes (t : Ty) (b : Bytes) : Except StreamError t.Val := do
  let (v, s) ← decodeVal t (newStream b)
  if 0 < s.input.length then .error .moreThanOneValue else return v

end Geth.Rlp.Reader
