import Nsh.Shell.Bytes

/-!
# White space around a number

The builtins that read a number from an operand trim it as Unicode text first.
What is left must be ASCII, so the encodings of white space are all there is to
look for.
-/

namespace Nsh

/-- The encodings of the characters that are white space. -/
def whiteSpace : List Bytes :=
  [[0x09], [0x0a], [0x0b], [0x0c], [0x0d], [0x20], [0xc2, 0x85], [0xc2, 0xa0], [0xe1, 0x9a, 0x80],
    [0xe2, 0x80, 0x80], [0xe2, 0x80, 0x81], [0xe2, 0x80, 0x82], [0xe2, 0x80, 0x83],
    [0xe2, 0x80, 0x84], [0xe2, 0x80, 0x85], [0xe2, 0x80, 0x86], [0xe2, 0x80, 0x87],
    [0xe2, 0x80, 0x88], [0xe2, 0x80, 0x89], [0xe2, 0x80, 0x8a], [0xe2, 0x80, 0xa8],
    [0xe2, 0x80, 0xa9], [0xe2, 0x80, 0xaf], [0xe2, 0x81, 0x9f], [0xe3, 0x80, 0x80]]

/-- Drop these from the front of a text, so many at most. -/
def trimStart (spaces : List Bytes) : Nat → Bytes → Bytes
  | 0, bytes => bytes
  | most + 1, bytes =>
    match spaces.find? (·.isPrefixOf bytes) with
    | some space => trimStart spaces most (bytes.drop space.length)
    | none => bytes

/-- `str::trim`. -/
def trim (bytes : Bytes) : Bytes :=
  let front := trimStart whiteSpace bytes.length bytes
  (trimStart (whiteSpace.map List.reverse) front.length front.reverse).reverse

end Nsh
