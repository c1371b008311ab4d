/-
The base64url codec of jws.js, in both runtimes, and its strict decoder.

Where there is a `Buffer` it writes and reads the alphabet itself, and is
lenient in reading (`Lib.Base64.bufferDecode`): it stops at a `=` and
passes over what is no digit. Where there is none the bytes go through
`btoa` and `atob` and a binary string, whose units are the bytes; it is
kept as the bytes here. `atob` refuses what `Buffer` passes over.

`strictB64url` decodes, encodes again and compares, so which of the two
decoders runs makes no difference to what it accepts.
-/
import KxcoPostQuantum.Js.Value
import KxcoPostQuantum.Lib.Base64
import Mathlib.Data.List.DropRight

namespace KxcoPostQuantum.Jws

open Lib.Base64 Lib.Utf8

-- ========================================================== base64url

/-- `atob`. -/
def atob (rt : Runtime) (s : JsString) : Except JsError Bytes :=
  match forgivingDecode s with
  | some b => .ok b
  | none => .error { name := .domException, message := rt.decodeMessage s }

/-- Every `c` of the string replaced by `d`. -/
def replaceAll (c d : UInt16) (s : JsString) : JsString :=
  s.map fun u => if u = c then d else u

/-- The base64url text of some bytes. -/
def b64url (rt : Runtime) (bytes : Bytes) : JsString :=
  if rt.hasBuffer then encodeUrl bytes
  else
    -- `btoa(binary).replace(/\+/g, '-').replace(/\//g, '_')
    --   .replace(/=+$/, '')`
    (replaceAll 47 95 (replaceAll 43 45 (encodeStd bytes))).rdropWhile (· = 61)

/-- The bytes of a base64url text, as the runtime's own decoder has
them. -/
def fromB64url (rt : Runtime) (str : JsString) : Except JsError Bytes :=
  if rt.hasBuffer then .ok (bufferDecode str)
  else
    let padded := replaceAll 95 47 (replaceAll 45 43 str)
    atob rt (padded ++ List.replicate ((4 - padded.length % 4) % 4) 61)

/-- `/^[A-Za-z0-9_-]+$/.test(str)`. -/
def isB64urlText (str : JsString) : Bool := !str.isEmpty && str.all isUrlChar

/-- The bytes of a segment that is exactly what they encode to. -/
def strictB64url (rt : Runtime) (str : JsVal) (what : JsString) :
    Except JsError Bytes :=
  match str with
  | .string s =>
      if s.length = 0 ∨ ¬isB64urlText s then
        .error (error
          (js "malformed JWS: " ++ what ++ js " is not base64url"))
      else do
        let bytes ← fromB64url rt s
        if b64url rt bytes ≠ s then
          .error (error
            (js "malformed JWS: " ++ what ++ js " is not canonically encoded"))
        else return bytes
  | _ =>
      .error (error (js "malformed JWS: " ++ what ++ js " is not base64url"))

end KxcoPostQuantum.Jws
