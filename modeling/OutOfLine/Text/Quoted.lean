import OutOfLine.Text
import OutOfLine.Text.Unprintable

/-! Text between double quotes, with escapes for what would not show. -/

namespace OutOfLine

namespace Text

/-- One character of quoted text. Unprintable characters are written as their code points. -/
def quoteChar (c : Char) : Text :=
  match c with
  | '"' => ['\\', '"']
  | '\\' => ['\\', '\\']
  | '\n' => ['\\', 'n']
  | '\t' => ['\\', 't']
  | '\r' => ['\\', 'r']
  | '\x00' => ['\\', '0']
  | _ =>
    if isUnprintable c then
      ['\\', 'u', '{'] ++ Nat.toDigits 16 c.toNat ++ ['}']
    else [c]

def quote (t : Text) : Text := ['"'] ++ t.flatMap quoteChar ++ ['"']

end Text

end OutOfLine
