import ScanArchive.Bytes

/-!
# Texts

Texts that hold nothing, texts as error messages show them, and the texts that bytes are.
-/

namespace ScanArchive.Text

/-! ## Blank texts

Whitespace is what Unicode gives the White_Space property, but for the next-line character and the
three spaces that forbid a line break, and with the four ASCII information separators.
-/

/-- Whitespace that separates words and may be broken at. -/
def isBlankChar (c : Char) : Bool :=
  let n := c.toNat
  (0x09 ≤ n && n ≤ 0x0D) || (0x1C ≤ n && n ≤ 0x20) || n == 0x1680
    || (0x2000 ≤ n && n ≤ 0x2006) || (0x2008 ≤ n && n ≤ 0x200A)
    || n == 0x2028 || n == 0x2029 || n == 0x205F || n == 0x3000

/-- Holds also of the empty text. -/
def isBlank (s : String) : Bool := s.toList.all isBlankChar

/-! ## Quoted texts

Quotes and backslashes are escaped, and so is what would not be seen: control characters and all
whitespace but the plain space.
-/

def quotedChar (c : Char) : List Char :=
  match c with
  | '\t' => ['\\', 't']
  | '\n' => ['\\', 'n']
  | '\r' => ['\\', 'r']
  | '\x00' => ['\\', '0']
  | '"' => ['\\', '"']
  | '\\' => ['\\', '\\']
  | ' ' => [' ']
  | c =>
    if isBlankChar c || c.toNat < 0x20 || c.toNat = 0x7F then
      ['\\', 'u', '\x7b'] ++ Nat.toDigits 16 c.toNat ++ ['\x7d']
    else [c]

def quoted (s : String) : String :=
  String.ofList ('"' :: s.toList.flatMap quotedChar ++ ['"'])

/-! ## Texts of bytes

Names in containers need not be proper texts.  Bytes are read as UTF-8 with a replacement
character for each longest run that starts a character and does not end it, or as the code page
of the first personal computers, in which every byte is a character.
-/

def replacement : Char := '\uFFFD'

def isContinuation (b : UInt8) : Bool := 0x80 ≤ b && b ≤ 0xBF

/-- Whether a byte may come second after the given first byte of three or four. -/
def isSecond (first second : UInt8) : Bool :=
  isContinuation second &&
    (if first == 0xE0 then 0xA0 ≤ second
    else if first == 0xED then second ≤ 0x9F
    else if first == 0xF0 then 0x90 ≤ second
    else if first == 0xF4 then second ≤ 0x8F
    else true)

def assemble (bits : Nat) (continuations : List UInt8) : Char :=
  Char.ofNat (continuations.foldl (fun n b => n * 64 + b.toNat % 64) bits)

/-- The first character or replacement, and how many bytes it stands for. -/
def lossyChar (first : UInt8) (rest : Bytes) : Char × Nat :=
  if first < 0x80 then (assemble first.toNat [], 1)
  else if 0xC2 ≤ first ∧ first ≤ 0xDF then
    match rest with
    | b :: _ => if isContinuation b then (assemble (first.toNat % 32) [b], 2) else (replacement, 1)
    | [] => (replacement, 1)
  else if 0xE0 ≤ first ∧ first ≤ 0xEF then
    match rest with
    | b :: tail =>
      if !isSecond first b then (replacement, 1)
      else match tail with
        | c :: _ =>
          if isContinuation c then (assemble (first.toNat % 16) [b, c], 3) else (replacement, 2)
        | [] => (replacement, 2)
    | [] => (replacement, 1)
  else if 0xF0 ≤ first ∧ first ≤ 0xF4 then
    match rest with
    | b :: tail =>
      if !isSecond first b then (replacement, 1)
      else match tail with
        | c :: tail =>
          if !isContinuation c then (replacement, 2)
          else match tail with
            | d :: _ =>
              if isContinuation d then (assemble (first.toNat % 8) [b, c, d], 4)
              else (replacement, 3)
            | [] => (replacement, 3)
        | [] => (replacement, 2)
    | [] => (replacement, 1)
  else (replacement, 1)

def lossyChars (bytes : Bytes) : List Char :=
  match bytes with
  | [] => []
  | first :: rest =>
    let (c, length) := lossyChar first rest
    c :: lossyChars (rest.drop (length - 1))
  termination_by bytes.length
  decreasing_by simp only [List.length_drop, List.length_cons]; omega

def ofBytesLossy (bytes : Bytes) : String := String.ofList (lossyChars bytes)

def codePage437 : Array Char :=
  ("ÇüéâäàåçêëèïîìÄÅÉæÆôöòûùÿÖÜ¢£¥₧ƒáíóúñÑªº¿⌐¬½¼¡«»░▒▓│┤╡╢╖╕╣║╗╝╜╛┐" ++
    "└┴┬├─┼╞╟╚╔╩╦╠═╬╧╨╤╥╙╘╒╓╫╪┘┌█▄▌▐▀αßΓπΣσµτΦΘΩδ∞φε∩≡±≥≤⌠⌡÷≈°∙·√ⁿ²■\u00a0").toList.toArray

def ofCodePage437 (bytes : Bytes) : String :=
  String.ofList (bytes.map fun b =>
    if b < 0x80 then Char.ofNat b.toNat else (codePage437[b.toNat - 0x80]?).getD replacement)

end ScanArchive.Text
