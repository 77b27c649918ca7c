import Teal.Value
import Teal.Json
import Teal.Decimal.Style
import Teal.Decimal.Numeral

/-!
# Values as documents

A value is written as an object with its type and its content. Only a double that is not finite
has no written form.

## Main definitions

* `Value.toJson`: the document of a value, or the first double that has none.
* `Value.ofJson?`: the value of a document.
-/

namespace Teal

structure NonFinite where
  value : Float

def NonFinite.message (e : NonFinite) : String :=
  "non-finite float `" ++ Decimal.plain.write e.value ++ "`"

def Value.Kind.documented : Value.Kind → String
  | .null => "Null"
  | .boolean => "Boolean"
  | .integer => "Integer"
  | .float => "Float"
  | .string => "String"
  | .symbol => "Symbol"
  | .list => "List"
  | .hash => "Hash"
  | .function => "Function"
  | .closure => "Closure"
  | .future => "Future"

def Value.Kind.ofDocumented? : String → Option Value.Kind
  | "Null" => some .null
  | "Boolean" => some .boolean
  | "Integer" => some .integer
  | "Float" => some .float
  | "String" => some .string
  | "Symbol" => some .symbol
  | "List" => some .list
  | "Hash" => some .hash
  | "Function" => some .function
  | "Closure" => some .closure
  | "Future" => some .future
  | _ => none

/-- A name in documents stands for the kind it was made from. -/
@[simp] theorem Value.Kind.ofDocumented?_documented (k : Value.Kind) :
    ofDocumented? k.documented = some k := by
  cases k <;> rfl

namespace Value

def typed (kind : Kind) (content : Json) : Json :=
  .obj [("type", .str kind.documented), ("value", content)]

mutual

def toJson : Value → Except NonFinite Json
  | .null => .ok (.obj [("type", .str "Null")])
  | .boolean b => .ok (typed .boolean (.bool b))
  | .integer n => .ok (typed .integer (.int n.toInt))
  | .float x => if x.isFinite then .ok (typed .float (.float x)) else .error ⟨x⟩
  | .string s => .ok (typed .string (.str s))
  | .symbol s => .ok (typed .symbol (.str s))
  | .list items => (itemsToJson items).map fun js => typed .list (.arr js)
  | .hash pairs => (pairsToJson pairs).map fun js => typed .hash (.arr js)
  | .function name => .ok (typed .function (.str name))
  | .closure name captured =>
    (entriesToJson captured).map fun fields =>
      typed .closure (.obj [("captured", .obj fields), ("function", .str name)])
  | .future task => .ok (typed .future (.nat task))

def itemsToJson : List Value → Except NonFinite (List Json)
  | [] => .ok []
  | v :: rest => do
    let j ← toJson v
    let js ← itemsToJson rest
    .ok (j :: js)

def pairsToJson : List (Value × Value) → Except NonFinite (List Json)
  | [] => .ok []
  | (k, v) :: rest => do
    let key ← toJson k
    let value ← toJson v
    let js ← pairsToJson rest
    .ok (.arr [key, value] :: js)

def entriesToJson : List (String × Value) → Except NonFinite (List (String × Json))
  | [] => .ok []
  | (name, v) :: rest => do
    let j ← toJson v
    let js ← entriesToJson rest
    .ok ((name, j) :: js)

end

def ofScalar? : Kind → Json → Option Value
  | .null, .null => some .null
  | .boolean, .bool b => some (.boolean b)
  | .integer, .int n => (Numeral.toInt64? n).map .integer
  | .float, .int n => some (.float (Float.ofInt n))
  | .float, .float x => some (.float x)
  | .string, .str s => some (.string s)
  | .symbol, .str s => some (.symbol s)
  | .function, .str s => some (.function s)
  | .future, j => j.nat?.map .future
  | _, _ => none

def kindOf? (fields : Table String Json) : Option Kind :=
  (Table.get? fields "type").bind fun j => j.string?.bind Kind.ofDocumented?

mutual

/-- The value of a document: an object with type and content, or an array of the two. -/
def ofJson? : Json → Option Value
  | .obj fields => (kindOf? fields).bind fun kind => ofFields? kind fields
  | .arr [.str name, content] => (Kind.ofDocumented? name).bind fun kind => ofContent? kind content
  | _ => none

/-- The value of a kind whose content stands among fields. Only null can do without. -/
def ofFields? (kind : Kind) : List (String × Json) → Option Value
  | [] => if kind = .null then some .null else none
  | (name, j) :: rest => if name = "value" then ofContent? kind j else ofFields? kind rest

def ofContent? (kind : Kind) : Json → Option Value
  | .arr items =>
    match kind with
    | .list => (itemsOfJson? items).map .list
    | .hash => (pairsOfJson? items).map .hash
    | _ => none
  | .obj fields =>
    match kind with
    | .closure =>
      (Json.required fields "function" Json.string?).bind fun name =>
        (capturedOf? fields).map (.closure name)
    | _ => none
  | j => ofScalar? kind j

def itemsOfJson? : List Json → Option (List Value)
  | [] => some []
  | j :: rest =>
    (ofJson? j).bind fun v => (itemsOfJson? rest).map (v :: ·)

def pairsOfJson? : List Json → Option (List (Value × Value))
  | [] => some []
  | .arr [key, value] :: rest =>
    (ofJson? key).bind fun k => (ofJson? value).bind fun v =>
      (pairsOfJson? rest).map ((k, v) :: ·)
  | _ :: _ => none

def capturedOf? : List (String × Json) → Option (List (String × Value))
  | [] => none
  | (name, j) :: rest => if name = "captured" then bindingsOfJson? j else capturedOf? rest

def bindingsOfJson? : Json → Option (List (String × Value))
  | .obj fields => entriesOfJson? fields
  | _ => none

def entriesOfJson? : List (String × Json) → Option (List (String × Value))
  | [] => some []
  | (name, j) :: rest =>
    (ofJson? j).bind fun v => (entriesOfJson? rest).map ((name, v) :: ·)

end

end Value

end Teal
