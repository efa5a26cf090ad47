/-!
# Text from bytes

Scripts and typed lines arrive as bytes. A line ends with a line feed, to which a carriage return in
front of it belongs; the last line may lack its end.
-/

namespace Lox.Input

/-- Why bytes are no text. -/
def invalidText : String := "stream did not contain valid UTF-8"

def decode (bytes : ByteArray) : Except String String :=
  match String.fromUTF8? bytes with
  | some text => .ok text
  | none => .error invalidText

/-- A line whose bytes stand last first, without a carriage return at its end. -/
def ended : List UInt8 → List UInt8
  | 13 :: reversed => reversed.reverse
  | reversed => reversed.reverse

/-- Splits bytes into lines. The bytes of the current line stand last first. -/
def split (current : List UInt8) (earlier : List (List UInt8)) : List UInt8 → List (List UInt8)
  | [] => if current.isEmpty then earlier.reverse else (current.reverse :: earlier).reverse
  | 10 :: rest => split [] (ended current :: earlier) rest
  | byte :: rest => split (byte :: current) earlier rest

/-- The lines of an input, each as text or as the reason why it is none. -/
def lines (bytes : ByteArray) : List (Except String String) :=
  (split [] [] bytes.toList).map fun line => decode ⟨line.toArray⟩

end Lox.Input
