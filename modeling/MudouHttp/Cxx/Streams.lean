import MudouHttp.Cxx.Text
import MudouHttp.Lib.Fields

/-!
# Streams

Formatted output to a `stringstream`: base, letter case and fill character stay
as a manipulator has set them, the width is for the next item only. Lines read
from an `ifstream`.
-/

namespace MudouHttp

structure OStream where
  text : Bytes
  width : Nat
  fill : UInt8
  hex : Bool
  uppercase : Bool

namespace OStream

def new : OStream := { text := [], width := 0, fill := 32, hex := false, uppercase := false }

def setHex (ss : OStream) : OStream := { ss with hex := true }

def setfill (ss : OStream) (c : UInt8) : OStream := { ss with fill := c }

def setw (ss : OStream) (width : Nat) : OStream := { ss with width := width }

def setUppercase (ss : OStream) : OStream := { ss with uppercase := true }

/-- One item, filled on the left. -/
def put (ss : OStream) (item : Bytes) : OStream :=
  { ss with text := ss.text ++ List.replicate (ss.width - item.length) ss.fill ++ item, width := 0 }

def number (ss : OStream) (n : Nat) : Bytes :=
  (Nat.toDigits (if ss.hex then 16 else 10) n).map fun c => chr (if ss.uppercase then c.toUpper else c)

def putUInt (ss : OStream) (n : Nat) : OStream := ss.put (ss.number n)

end OStream

/-- What is left of a file and two of the bits of the stream's state. -/
structure IStream where
  rest : Bytes
  eof : Bool
  fail : Bool

namespace IStream

def new (content : Bytes) : IStream := { rest := content, eof := false, fail := false }

def good (ifs : IStream) : Bool := !ifs.eof && !ifs.fail

/-- `getline(ifs, line)` and `line` after it, which a stream that is not good
leaves alone. -/
def getline (ifs : IStream) (line : Bytes) : IStream × Bytes :=
  if !ifs.good then ({ ifs with fail := true }, line)
  else
    match Lib.cut 10 ifs.rest with
    | some (text, rest) => ({ ifs with rest := rest }, text)
    | none => ({ rest := [], eof := true, fail := ifs.rest.isEmpty }, ifs.rest)

end IStream

end MudouHttp
