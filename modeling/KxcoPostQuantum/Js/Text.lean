/-
Texts: what is read of a file as `utf8`, and `trim`.

Reading replaces what is no UTF-8 and keeps a byte order mark; what comes
out is a string of the language, which the scripts then search and write
again. `trim` takes white space as the language counts it off both ends,
line terminators and the mark among it.
-/
import KxcoPostQuantum.Js.Value

namespace KxcoPostQuantum

open Lib

/-- The text of a file read as `utf8`, a byte order mark kept. -/
def utf8Text (content : Bytes) : JsString :=
  (Utf8.decode {} content).flatMap Utf8.units

/-- White space and line ends, which `trim` takes off. -/
def isTrimmed (u : UInt16) : Bool :=
  let n := u.toNat
  9 ≤ n && n ≤ 13 || n = 0x20 || n = 0xA0 || n = 0x1680
    || 0x2000 ≤ n && n ≤ 0x200A || n = 0x2028 || n = 0x2029 || n = 0x202F
    || n = 0x205F || n = 0x3000 || n = 0xFEFF

/-- `s.trim()`. -/
def trim (s : JsString) : JsString :=
  ((s.dropWhile isTrimmed).reverse.dropWhile isTrimmed).reverse

end KxcoPostQuantum
