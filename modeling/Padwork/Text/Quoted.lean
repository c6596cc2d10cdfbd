/-!
# Quoted characters

How a message shows one byte: as the character of the same number between single
quotes, with an escape where the character would not be visible.
-/
namespace Padwork.Quoted

/-- Whether the character of this number shows itself: neither a control, nor the no-break space,
nor the soft hyphen. -/
def isVisible (byte : UInt8) : Bool :=
  (0x20 ≤ byte && byte < 0x7F) || (0xA0 < byte && byte != 0xAD)

/-- Lower-case hexadecimal without leading zeros. -/
def hexNumber (byte : UInt8) : List Char :=
  if byte < 16 then [byte.toNat.digitChar]
  else [(byte.toNat / 16).digitChar, (byte.toNat % 16).digitChar]

def escape (byte : UInt8) : List Char :=
  match Char.ofNat byte.toNat with
  | '\x00' => ['\\', '0']
  | '\t' => ['\\', 't']
  | '\n' => ['\\', 'n']
  | '\r' => ['\\', 'r']
  | '\'' => ['\\', '\'']
  | '\\' => ['\\', '\\']
  | c => if isVisible byte then [c] else '\\' :: 'u' :: '\x7b' :: hexNumber byte ++ ['\x7d']

def render (byte : UInt8) : String := String.ofList ('\'' :: escape byte ++ ['\''])

example : (render 0x61, render 0x27, render 0x0A, render 0x7F, render 0xC3, render 0x01) =
    ("'a'", "'\\''", "'\\n'", "'\\u\x7b7f\x7d'", "'Ã'", "'\\u\x7b1\x7d'") := by decide +kernel

end Padwork.Quoted
