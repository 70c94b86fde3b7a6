import Survol.Lib.Dict
import Survol.Lib.Text

/-!
# Transferred buffers

The tracers print a fragment of the bytes that a call reads or writes. The
fragments of one access are decoded, and consecutive full segments are put back
together before the scanners look at them.

## Main definitions

* `decodeOctalEscapeSequence` — the bytes that a printed fragment stands for.
* `BufferConcatenator`, `appendIOBuffer` — reassembly.
-/

open PyText

namespace Survol.Dockit

/-! ## Escape sequences -/

/-- The byte named by a one-letter escape. -/
def simpleEscape (c : Char) : Option Char :=
  match c with
  | '\\' => some '\\'
  | '\'' => some '\''
  | '"' => some '"'
  | 'b' => some '\x08'
  | 'f' => some '\x0c'
  | 't' => some '\t'
  | 'n' => some '\n'
  | 'r' => some '\r'
  | 'v' => some '\x0b'
  | 'a' => some '\x07'
  | _ => none

/-- The byte written by octal digits. -/
def octalByte (digits : Text) : Char := Char.ofNat ((natOfDigits 8 0 digits).getD 0 % 256)

/-- `decode('string_escape')`, reading at most `fuel` characters; `none` where it
raises, which a last backslash and an incomplete `\x` do. -/
def decodeEscapes : ℕ → Text → Option Text
  | _, [] => some []
  | 0, _ => some []
  | _ + 1, ['\\'] => none
  | fuel + 1, '\\' :: '\n' :: s => decodeEscapes fuel s
  | fuel + 1, '\\' :: 'x' :: s =>
    match s with
    | h :: l :: t => do
      let byte ← nat? 16 [h, l]
      let rest ← decodeEscapes fuel t
      return Char.ofNat byte :: rest
    | _ => none
  | fuel + 1, '\\' :: c :: s =>
    let digits := ((c :: s).take 3).takeWhile fun d => (digitVal? 8 d).isSome
    if digits = [] then
      match simpleEscape c with
      | some byte => (decodeEscapes fuel s).map (byte :: ·)
      | none => (decodeEscapes fuel s).map ('\\' :: c :: ·)
    else (decodeEscapes fuel ((c :: s).drop digits.length)).map (octalByte digits :: ·)
  | fuel + 1, c :: s => (decodeEscapes fuel s).map (c :: ·)

/-- `DecodeOctalEscapeSequence`. -/
def decodeOctalEscapeSequence (aBuffer : Text) : Option Text :=
  decodeEscapes aBuffer.length aBuffer

/-! ## Reassembly -/

/-- The functions that look for information in a complete buffer, by name. -/
abbrev BufferScanners := List (Text × (Text → List Text))

/-- The fragments not yet analysed, and what the scanners have found. -/
structure BufferConcatenator where
  currentBuffer : Option Text
  parsedData : Option (Dict Text (List Text))
  deriving DecidableEq

/-- A concatenator that has not received anything. -/
def BufferConcatenator.new : BufferConcatenator := ⟨none, none⟩

/-- What one scanner finds is added to the data. -/
def BufferConcatenator.scan (aBuffer : Text) (b : BufferConcatenator)
    (scanner : Text × (Text → List Text)) : BufferConcatenator :=
  let lstResults := scanner.2 aBuffer
  if lstResults = [] then b else
    let data := b.parsedData.getD []
    { b with parsedData := some (data.set scanner.1 ((data.get? scanner.1).getD [] ++ lstResults)) }

/-- `AnalyseCompleteBuffer`. -/
def BufferConcatenator.analyseCompleteBuffer (scanners : BufferScanners) (b : BufferConcatenator)
    (aBuffer : Text) : BufferConcatenator :=
  scanners.foldl (scan aBuffer) b

/-- The sizes that a buffer has when it is one segment of a longer message. -/
def isSegmentSize (szFragment : ℤ) : Bool :=
  (szFragment % 0x100 = 0 && szFragment ≤ 0x1000)
    || (szFragment % 0x1000 = 0 && szFragment ≤ 0x10000)
    || (szFragment % 0x10000 = 0 && szFragment ≤ 0x100000)
    || szFragment % 0x100000 = 0

/-- `AppendIOBuffer`; `none` where the decoding raises, before any change. -/
def BufferConcatenator.appendIOBuffer (scanners : BufferScanners) (b : BufferConcatenator)
    (aFragment : Text) (szFragment : ℤ) : Option BufferConcatenator := do
  let decodedFragment ← decodeOctalEscapeSequence aFragment
  let pending := b.currentBuffer.getD []
  if isSegmentSize szFragment ∧ szFragment = decodedFragment.length then
    return { b with currentBuffer := some (pending ++ decodedFragment) }
  else
    let b := if pending = [] then b else
      { b.analyseCompleteBuffer scanners pending with currentBuffer := none }
    return b.analyseCompleteBuffer scanners decodedFragment

end Survol.Dockit
