/-!
# Hashing by multiplication

Numbers and byte strings are hashed to 64 bits with wrapping multiplications. A number is absorbed
into the state by an addition and one multiplication, and the finished state is rotated, which
brings its well-mixed high bits down to where a remainder reads them. A byte string is first folded
to one number, sixteen bytes at a time, through the product of two words of which the halves are
xored.
-/

namespace SoftCache.Mixing

/-- The multiplier of the state. -/
def multiplier : UInt64 := 0xf1357aea2e62a9c5

/-- The state after one more number. -/
def absorb (state number : UInt64) : UInt64 :=
  (state + number) * multiplier

/-- The hash that a state stands for. -/
def finish (state : UInt64) : UInt64 :=
  state <<< 26 ||| state >>> 38

/-- The low half of the product of two words, xored with the high half. -/
def fold (x y : UInt64) : UInt64 :=
  let product := x.toNat * y.toNat
  UInt64.ofNat product ^^^ UInt64.ofNat (product >>> 64)

/-- The number that bytes stand for, the lowest first. -/
def littleEndian (bytes : List UInt8) : UInt64 :=
  bytes.foldr (fun byte rest => rest <<< 8 ||| byte.toUInt64) 0

/-- The `count` bytes from the position `start` on, as a number. -/
def word (bytes : List UInt8) (start count : Nat) : UInt64 :=
  littleEndian ((bytes.drop start).take count)

/-- Folds every block of sixteen bytes that is followed by at least one more byte into the two
running words. -/
def blocks : Nat → List UInt8 → UInt64 × UInt64 → UInt64 × UInt64
  | 0, _, words => words
  | n + 1, bytes, (first, second) =>
    blocks n (bytes.drop 16)
      (second, fold (first ^^^ word bytes 0 8) (0xa4093822299f31d0 ^^^ word bytes 8 8))

/-- The number that a byte string is hashed as. -/
def ofBytes (bytes : List UInt8) : UInt64 :=
  let n := bytes.length
  let first : UInt64 := 0x243f6a8885a308d3
  let second : UInt64 := 0x13198a2e03707344
  let words :=
    if 16 < n then
      let folded := blocks ((n - 1) / 16) bytes (first, second)
      (folded.1 ^^^ word bytes (n - 16) 8, folded.2 ^^^ word bytes (n - 8) 8)
    else if 8 ≤ n then
      (first ^^^ word bytes 0 8, second ^^^ word bytes (n - 8) 8)
    else if 4 ≤ n then
      (first ^^^ word bytes 0 4, second ^^^ word bytes (n - 4) 4)
    else if 0 < n then
      (first ^^^ word bytes 0 1, second ^^^ (word bytes (n - 1) 1 <<< 8 ||| word bytes (n / 2) 1))
    else (first, second)
  fold words.1 words.2 ^^^ UInt64.ofNat n

/-- The hash of a number. -/
def hashNumber (n : UInt64) : UInt64 :=
  finish (absorb 0 n)

/-- The hash of a text: its bytes as one number, then the byte `0xff`, which no text contains. -/
def hashText (s : String) : UInt64 :=
  finish (absorb (absorb 0 (ofBytes s.toUTF8.toList)) 0xff)

example : hashNumber 1 = 12157901119326311915 := by decide +kernel
example : hashText "abcd" = 9505570218702659736 := by decide +kernel

end SoftCache.Mixing
