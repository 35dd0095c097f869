/-
# 16-bit words in bytes

The driver stores words with the low byte first. Addresses are stored modulo
`2 ^ 16`.

Key definitions: `Word.bytes`, `Word.ofBytes`.
-/

namespace Chiptune
namespace Word

/-- The two bytes of a word. -/
def bytes (w : UInt16) : List UInt8 := [w.toUInt8, (w >>> 8).toUInt8]

/-- The word of two bytes. -/
def ofBytes (low high : UInt8) : UInt16 := low.toUInt16 ||| (high.toUInt16 <<< 8)

/-- The two bytes that store an address. -/
def address (n : Nat) : List UInt8 := bytes n.toUInt16

end Word
end Chiptune
