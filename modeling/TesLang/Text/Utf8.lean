/-!
# Bytes as text

A text is stored as UTF-8.  `Utf8.decode` reads it back, and tells where and how a sequence of bytes is no text: a byte
that starts nothing, a byte that does not continue what was started, or an end too soon.  A sequence counts as broken
at the first byte that cannot be part of any character: the second byte is held to the range that its first byte
leaves, which keeps out overlong forms, surrogates and everything past U+10FFFF.
-/
namespace TesLang.Text.Utf8

inductive Reason where
  | invalidStart
  | invalidContinuation
  | unexpectedEnd
  deriving DecidableEq, Repr

/-- Some bytes that are no text: `count` of them, from `pos` on, of which `byte` is the first. -/
structure Broken where
  pos : Nat
  count : Nat
  byte : UInt8
  reason : Reason
  deriving DecidableEq, Repr

def Reason.message : Reason → String
  | invalidStart        => "invalid start byte"
  | invalidContinuation => "invalid continuation byte"
  | unexpectedEnd       => "unexpected end of data"

/-- A byte as two hexadecimal digits. -/
def hex (b : UInt8) : String :=
  String.ofList [Nat.digitChar (b.toNat / 16), Nat.digitChar (b.toNat % 16)]

def Broken.message (b : Broken) : String :=
  "'utf-8' codec can't decode " ++
    (if b.count = 1 then "byte 0x" ++ hex b.byte ++ " in position " ++ toString b.pos
     else "bytes in position " ++ toString b.pos ++ "-" ++ toString (b.pos + b.count - 1)) ++
    ": " ++ b.reason.message

/-- A byte that continues a character. -/
def continues (b : UInt8) : Bool := 0x80 ≤ b.toNat && b.toNat < 0xC0

/-- Whether `b` may come second, after the first byte `a` of a character of three or four bytes. -/
def second (a b : UInt8) : Bool :=
  continues b &&
    (match a.toNat with
     | 0xE0 => 0xA0 ≤ b.toNat
     | 0xED => b.toNat < 0xA0
     | 0xF0 => 0x90 ≤ b.toNat
     | 0xF4 => b.toNat < 0x90
     | _    => true)

/-- The six bits that a byte adds to a character. -/
def bits (b : UInt8) : Nat := b.toNat % 64

/-- Reads the bytes from position `pos` on; `acc` has the characters before it, last first. -/
def decodeFrom (pos : Nat) (acc : List Char) : List UInt8 → Except Broken (List Char)
  | []        => .ok acc.reverse
  | a :: rest =>
    let broken (count : Nat) (reason : Reason) : Except Broken (List Char) := .error ⟨pos, count, a, reason⟩
    if a.toNat < 0x80 then decodeFrom (pos + 1) (Char.ofNat a.toNat :: acc) rest
    else if a.toNat < 0xC2 ∨ 0xF4 < a.toNat then broken 1 .invalidStart
    else if a.toNat < 0xE0 then
      match rest with
      | []        => broken 1 .unexpectedEnd
      | b :: rest =>
        if continues b then decodeFrom (pos + 2) (Char.ofNat (a.toNat % 32 * 64 + bits b) :: acc) rest
        else broken 1 .invalidContinuation
    else if a.toNat < 0xF0 then
      match rest with
      | []             => broken 1 .unexpectedEnd
      | b :: rest      =>
        if second a b then
          match rest with
          | []        => broken 2 .unexpectedEnd
          | c :: rest =>
            if continues c then
              decodeFrom (pos + 3) (Char.ofNat ((a.toNat % 16 * 64 + bits b) * 64 + bits c) :: acc) rest
            else broken 2 .invalidContinuation
        else broken 1 .invalidContinuation
    else
      match rest with
      | []        => broken 1 .unexpectedEnd
      | b :: rest =>
        if second a b then
          match rest with
          | []        => broken 2 .unexpectedEnd
          | c :: rest =>
            if continues c then
              match rest with
              | []        => broken 3 .unexpectedEnd
              | d :: rest =>
                if continues d then
                  decodeFrom (pos + 4)
                    (Char.ofNat (((a.toNat % 8 * 64 + bits b) * 64 + bits c) * 64 + bits d) :: acc) rest
                else broken 3 .invalidContinuation
            else broken 2 .invalidContinuation
        else broken 1 .invalidContinuation

def decode (bytes : List UInt8) : Except Broken (List Char) := decodeFrom 0 [] bytes

end TesLang.Text.Utf8
