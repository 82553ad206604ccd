import UtxoLedger.Bytes

/-!
Messages cut into blocks of sixteen 32-bit words, as iterated hash functions take them: a one bit,
zeros, and the length in bits complete the last block.
-/

namespace UtxoLedger.Crypto.Padding

/-- The message with a one bit, zeros and its bit length, written by `writeLength`, behind it; the
number of bytes becomes a multiple of 64. -/
def pad (writeLength : Nat → Bytes) (message : Bytes) : Bytes :=
  let n := message.length
  message ++ 0x80 :: (List.replicate ((119 - n % 64) % 64) 0 ++ writeLength (8 * n))

/-- Four bytes as a word, most significant first. -/
def highFirst (a b c d : UInt8) : UInt32 :=
  (a.toUInt32 <<< 24) ||| (b.toUInt32 <<< 16) ||| (c.toUInt32 <<< 8) ||| d.toUInt32

/-- Four bytes as a word, least significant first. -/
def lowFirst (a b c d : UInt8) : UInt32 :=
  highFirst d c b a

/-- Appends the words that consecutive groups of four bytes make. -/
def wordsOnto (word : UInt8 → UInt8 → UInt8 → UInt8 → UInt32) (done : Array UInt32) :
    Bytes → Array UInt32
  | a :: b :: c :: d :: rest => wordsOnto word (done.push (word a b c d)) rest
  | _ => done

/-- The words of a byte string. -/
def words (word : UInt8 → UInt8 → UInt8 → UInt8 → UInt32) (bytes : Bytes) : Array UInt32 :=
  wordsOnto word #[] bytes

/-- Folds a compression function over consecutive blocks of sixteen words. -/
@[specialize]
def foldBlocks {σ : Type} (absorb : σ → Array UInt32 → σ) (initial : σ) (words : Array UInt32) :
    σ :=
  (List.range (words.size / 16)).foldl
    (fun state i => absorb state (words.extract (16 * i) (16 * i + 16))) initial

end UtxoLedger.Crypto.Padding
