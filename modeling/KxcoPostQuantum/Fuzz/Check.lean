/-
fuzz/fuzz.mjs: which errors `check` lets pass.
-/
import KxcoPostQuantum.Js.Value

namespace KxcoPostQuantum.Fuzz

/-- `named`: a typed, deliberate error. The `code` of a model's error is
a string when it is there; a `DOMException` has a number. -/
def named (e : JsError) : Bool :=
  e.name = .typeError || e.name = .rangeError || e.name = .syntaxError
    || e.code.isSome || (js "Kxco").isPrefixOf (constructorName e.name)

end KxcoPostQuantum.Fuzz
