import Geth.Rlp.Raw
import Geth.Trie.Encoding

namespace Geth.Trie.Decode

open Lib.BigEndian Common.Basic Rlp.Raw Encoding

structure NodeFlag where
  hash : Option Hash := none
  dirty : Bool := false
  deriving DecidableEq

/-- The nodes of a trie in memory. Keys are kept as hex digits. -/
inductive Node where
  | nil
  | value (v : Bytes)
  | hash (h : Hash)
  | short (key : List Nibble) (val : Node) (flags : NodeFlag)
  | full (children : Nibble → Node) (flags : NodeFlag)

namespace Node

def cache : Node → Option Hash × Bool
  | short _ _ fl => (fl.hash, fl.dirty)
  | full _ fl => (fl.hash, fl.dirty)
  | _ => (none, true)

def isNil : Node → Bool
  | nil => true
  | _ => false

end Node

inductive DecodeContext where
  | short | full | val | child (i : ℕ)
  deriving DecidableEq, Repr

inductive DecodeCause where
  | unexpectedEOF
  | decodeError (e : RawError)
  | listElements (count : ℕ)
  | key (e : RawError)
  | invalidValueNode (e : RawError)
  | value (e : RawError)
  | reference (e : RawError)
  | oversizedEmbedded (size : ℕ)
  | stringSize (size : ℕ)
  deriving DecidableEq, Repr

/-- An error with the path to the invalid child, innermost context first. -/
structure NodeError where
  what : DecodeCause
  stack : List DecodeContext := []
  deriving DecidableEq, Repr

def wrapError (ctx : DecodeContext) (err : NodeError) : NodeError :=
  { err with stack := err.stack ++ [ctx] }

def hashLen : ℕ := 32

/-- The child at the front of `buf`, and what follows it. -/
def decodeRef (decodeNode : Bytes → Except NodeError Node) (buf : Bytes) :
    Except NodeError (Node × Bytes) := do
  let (kind, val, rest) ← (split buf).mapError fun e => { what := .reference e }
  if kind = .list then
    let size := buf.length - rest.length
    if hashLen < size then .error { what := .oversizedEmbedded size }
    else
      let n ← decodeNode buf
      return (n, rest)
  -- a single byte below 0x80 is a kind of its own and not a string
  else if kind = .string ∧ val = [] then .ok (.nil, rest)
  else if kind = .string ∧ val.length = 32 then .ok (.hash (copyInto 32 val), rest)
  else .error { what := .stringSize val.length }

def decodeShort (ref : Bytes → Except NodeError (Node × Bytes)) (hash : Option Hash) (elems : Bytes) :
    Except NodeError Node := do
  let (kbuf, rest) ← (splitString elems).mapError fun e => { what := .key e }
  if hasTerm (compactToHex kbuf) then
    let (val, _) ← (splitString rest).mapError fun e => { what := .invalidValueNode e }
    return .short (compactToHex kbuf) (.value val) { hash }
  else
    let (r, _) ← (ref rest).mapError (wrapError .val)
    return .short (compactToHex kbuf) r { hash }

/-- The children from place `i` on, `count` of them. -/
def decodeChildren (ref : Bytes → Except NodeError (Node × Bytes)) :
    ℕ → ℕ → Bytes → Except NodeError (List Node × Bytes)
  | _, 0, elems => .ok ([], elems)
  | i, count + 1, elems => do
    let (cld, rest) ← (ref elems).mapError (wrapError (.child i))
    let (clds, rest) ← decodeChildren ref (i + 1) count rest
    return (cld :: clds, rest)

def lastChild (val : Bytes) : Node := if val.length > 0 then .value val else .nil

def decodeFull (ref : Bytes → Except NodeError (Node × Bytes)) (hash : Option Hash) (elems : Bytes) :
    Except NodeError Node := do
  let (clds, rest) ← decodeChildren ref 0 16 elems
  let (val, _) ← (splitString rest).mapError fun e => { what := .value e }
  return .full (fun i => if i = terminator then lastChild val else clds.getD i.val .nil) { hash }

/-- Each embedded node is shorter than the node it stands in, so that many
rounds as there are bytes are enough. -/
def decodeFrom : ℕ → Option Hash → Bytes → Except NodeError Node
  | 0, _, _ => .error { what := .unexpectedEOF }
  | fuel + 1, hash, buf =>
    if buf = [] then .error { what := .unexpectedEOF }
    else do
      let (elems, _) ← (splitList buf).mapError fun e => { what := .decodeError e }
      match (countValues elems).toOption.getD 0 with
      | 2 => (decodeShort (decodeRef (decodeFrom fuel none)) hash elems).mapError (wrapError .short)
      | 17 => (decodeFull (decodeRef (decodeFrom fuel none)) hash elems).mapError (wrapError .full)
      | c => .error { what := .listElements c }

def decodeNode (hash : Option Hash) (buf : Bytes) : Except NodeError Node :=
  decodeFrom buf.length hash buf

end Geth.Trie.Decode
