import BitTrie.Key

/-!
# Records and their keys

A record is kept by its owner; the trees see only the bytes of its key.  A sequence of bytes is
its own key, a text is keyed by its encoding, and a terminated text by its encoding and one zero
byte.

## Main definitions

* `Record`, `Record.key` — the kinds of records, and the key of each.
* `Hex.encode`, `Hex.decode?` — bytes as pairs of hexadecimal digits.

## Main results

* `Record.size_key_terminated` — the terminator is one more byte.
-/

namespace BitTrie

/-- Something with a key. -/
inductive Record where
  /-- A sequence of bytes. -/
  | bytes (data : Key)
  /-- A text. -/
  | text (content : String)
  /-- A text with a zero byte at its end. -/
  | terminatedText (content : String)
  deriving DecidableEq, Inhabited

/-- The bytes a record is ordered by. -/
def Record.key : Record → Key
  | .bytes data => data
  | .text content => content.toUTF8.data
  | .terminatedText content => content.toUTF8.data.push 0

theorem Record.size_key_terminated (content : String) :
    (Record.terminatedText content).key.size = (Record.text content).key.size + 1 := by
  simp [key]

/-! ### Hexadecimal digits -/

namespace Hex

/-- The digit of a number below sixteen. -/
def digit (n : Nat) : Char := if n < 10 then Char.ofNat (48 + n) else Char.ofNat (87 + n)

/-- The number of a digit. -/
def value? (c : Char) : Option Nat :=
  if '0' ≤ c ∧ c ≤ '9' then some (c.toNat - 48)
  else if 'a' ≤ c ∧ c ≤ 'f' then some (c.toNat - 87)
  else none

/-- Two digits for each byte. -/
def encode (k : Key) : String :=
  String.ofList (k.toList.flatMap fun b => [digit (b.toNat / 16), digit (b.toNat % 16)])

/-- The bytes of a sequence of digits. -/
def bytes? : List Char → Option (List UInt8)
  | [] => some []
  | [_] => none
  | high :: low :: rest => do
    let byte := UInt8.ofNat (16 * (← value? high) + (← value? low))
    return byte :: (← bytes? rest)

/-- The bytes of a text of digits. -/
def decode? (text : String) : Option Key := (bytes? text.toList).map List.toArray

end Hex

end BitTrie
