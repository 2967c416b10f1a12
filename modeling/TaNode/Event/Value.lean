import Mathlib.Algebra.Order.Ring.Int
import Mathlib.Data.List.Basic

/-! Go values as the storage encoder and `encoding/json` see them through reflection, and the JSON
    text `json.Marshal` writes for them.

    A `Value` keeps exactly what the two walks look at: the kind of the value, the `json` tag of a
    struct field, and the contents. Nil pointers, interfaces, slices and maps are one constructor,
    since both walks write `null` for all of them and both `omitempty` tests drop all of them. A map
    is listed in key order, the order in which both walks visit it (each sorts the keys first).

        encoder:      Value ──encode──▶ fragment + content nodes ──render──▶ text
        reference:    Value ───────────────marshal──────────────────────────▶ text -/

namespace TaNode

abbrev Bytes := List UInt8

instance : LawfulBEq Bytes := inferInstance

/-- The bytes of a Go string that is valid UTF-8. -/
def utf8 (s : String) : Bytes := s.toList.flatMap String.utf8EncodeChar

/-- The code of the bar stands for the bar only. -/
theorem bar_notMem_utf8 {s : String} (h : '|' ∉ s.toList) : 124 ∉ utf8 s := by
  rw [utf8, List.mem_flatMap]
  rintro ⟨c, hc, hbar⟩
  have hne : c.val.toNat ≠ 124 := by
    intro hval
    have hchar : c = '|' := Char.ext (UInt32.toNat_inj.mp hval)
    exact h (hchar ▸ hc)
  have hbyte : ∀ k, k < 256 → k ≠ 124 → (124 : UInt8) ≠ UInt8.ofNat k := by
    intro k hk hne heq
    have hnat := congrArg UInt8.toNat heq
    rw [UInt8.toNat_ofNat_of_lt' hk] at hnat
    exact hne hnat.symm
  rw [String.utf8EncodeChar] at hbar
  split at hbar
  · exact hbyte _ (by omega) hne (List.mem_singleton.mp hbar)
  · split at hbar
    · simp only [List.mem_cons, List.not_mem_nil, or_false] at hbar
      rcases hbar with hbar | hbar
      · exact hbyte _ (by omega) (by omega) hbar
      · exact hbyte _ (by omega) (by omega) hbar
    · split at hbar
      · simp only [List.mem_cons, List.not_mem_nil, or_false] at hbar
        rcases hbar with hbar | hbar | hbar
        · exact hbyte _ (by omega) (by omega) hbar
        · exact hbyte _ (by omega) (by omega) hbar
        · exact hbyte _ (by omega) (by omega) hbar
      · simp only [List.mem_cons, List.not_mem_nil, or_false] at hbar
        rcases hbar with hbar | hbar | hbar | hbar
        · exact hbyte _ (by omega) (by omega) hbar
        · exact hbyte _ (by omega) (by omega) hbar
        · exact hbyte _ (by omega) (by omega) hbar
        · exact hbyte _ (by omega) (by omega) hbar

/-- The `json` tag of an exported struct field: its name and whether it says `omitempty`. -/
structure Tag where
  name : String
  omitempty : Bool := false
  deriving DecidableEq, Repr

/-- A Go value under reflection. -/
inductive Value where
  /-- nil pointer, interface, slice or map, and the invalid value of `reflect.ValueOf(nil)` -/
  | nil
  | bool (b : Bool)
  | int (i : Int)
  | uint (n : Nat)
  /-- a float with the text `strconv` gives it, none for NaN and the infinities -/
  | float (text : Option Bytes) (zero : Bool)
  /-- a `json.Number` -/
  | number (text : Bytes)
  /-- a value with its own `MarshalJSON` and the text that returns, none when it fails -/
  | marshaler (text : Option Bytes) (empty : Bool)
  | str (s : Bytes)
  /-- a non-nil `[]byte` -/
  | bytes (b : Bytes)
  /-- a non-nil pointer or interface -/
  | ref (v : Value)
  /-- a non-nil slice, or an array -/
  | slice (xs : List Value)
  | struct (fs : List (Tag × Value))
  /-- a non-nil map with string keys -/
  | map (kvs : List (String × Value))

/-- Whether `json.Marshal` accepts the text of a `json.Number`: an optional minus sign, an integer
    part without superfluous zeros, an optional fraction and an optional exponent. -/
def isValidNumber (text : Bytes) : Bool :=
  let isDigit : UInt8 → Bool := fun c => 48 ≤ c && c ≤ 57
  let t := match text with
    | 45 :: rest => rest
    | _ => text
  let afterInt : Option Bytes := match t with
    | 48 :: rest => some rest
    | c :: rest => if 49 ≤ c && c ≤ 57 then some (rest.dropWhile isDigit) else none
    | [] => none
  match afterInt with
  | none => false
  | some t =>
    let t := match t with
      | 46 :: c :: rest => if isDigit c then rest.dropWhile isDigit else t
      | _ => t
    let t := match t with
      | e :: rest =>
        if e == 101 || e == 69 then
          let digits := match rest with
            | s :: more => if s == 43 || s == 45 then more else rest
            | [] => []
          match digits with
          | c :: more => if isDigit c then more.dropWhile isDigit else t
          | [] => t
        else t
      | [] => t
    t.isEmpty

/-- Text functions of `encoding/json` that the program uses and whose inner workings do not matter
    to it: string and `[]byte` literals, `json.Valid`, the bracket depth its scanner counts, the
    compaction applied to a `RawMessage`, and decoding into an `any`, with `UseNumber` and without,
    where a number out of the range of a `float64` is an error. -/
structure Json where
  quote : Bytes → Bytes
  base64 : Bytes → Bytes
  valid : Bytes → Bool
  depth : Bytes → Nat
  compact : Bytes → Bytes
  decodeAny : Bytes → Option Value
  unmarshalAny : Bytes → Option Value

/-- The scanner of `encoding/json` refuses a text nested deeper than this. -/
def maxNestingDepth : Nat := 10000

/-- `isEmptyValue` of `encoding/json`, the test behind `omitempty`. -/
def isEmptyValue : Value → Bool
  | .nil => true
  | .bool b => !b
  | .int i => i == 0
  | .uint n => n == 0
  | .float _ zero => zero
  | .number text => text.isEmpty
  | .marshaler _ empty => empty
  | .str s => s.isEmpty
  | .bytes b => b.isEmpty
  | .ref _ => false
  | .slice xs => xs.isEmpty
  | .struct _ => false
  | .map kvs => kvs.isEmpty

/-- Comma-separated JSON texts. -/
def joinComma : List Bytes → Bytes
  | [] => []
  | [t] => t
  | t :: ts => t ++ utf8 "," ++ joinComma ts

section
variable (J : Json)

/-- One `"key":value` member. -/
def memberText (key : String) (text : Bytes) : Bytes := J.quote (utf8 key) ++ utf8 ":" ++ text

mutual
/-- `json.Marshal`: none is an error. -/
def marshal : Value → Option Bytes
  | .nil => some (utf8 "null")
  | .bool b => some (utf8 (if b then "true" else "false"))
  | .int i => some (utf8 (toString i))
  | .uint n => some (utf8 (toString n))
  | .float text _ => text.filter isValidNumber
  | .number text =>
    let text := if text.isEmpty then utf8 "0" else text
    if isValidNumber text then some text else none
  | .marshaler text _ => (text.filter J.valid).map J.compact
  | .str s => some (J.quote s)
  | .bytes b => some (J.base64 b)
  | .ref v => marshal v
  | .slice xs => (marshalItems xs).map fun ts => utf8 "[" ++ joinComma ts ++ utf8 "]"
  | .struct fs => (marshalFields fs).map fun ts => utf8 "\x7b" ++ joinComma ts ++ utf8 "\x7d"
  | .map kvs => (marshalEntries kvs).map fun ts => utf8 "\x7b" ++ joinComma ts ++ utf8 "\x7d"

def marshalItems : List Value → Option (List Bytes)
  | [] => some []
  | v :: vs => do
    let t ← marshal v
    let ts ← marshalItems vs
    return t :: ts

def marshalFields : List (Tag × Value) → Option (List Bytes)
  | [] => some []
  | (tag, v) :: fs =>
    if tag.omitempty && isEmptyValue v then marshalFields fs
    else do
      let t ← marshal v
      let ts ← marshalFields fs
      return memberText J tag.name t :: ts

def marshalEntries : List (String × Value) → Option (List Bytes)
  | [] => some []
  | (key, v) :: kvs => do
    let t ← marshal v
    let ts ← marshalEntries kvs
    return memberText J key t :: ts
end

end

section
variable (J : Json)

mutual
/-- Container nesting of a value: how many slices, structs and maps enclose its deepest scalar. The
    text of a value with its own serializer counts with the brackets it brings along. -/
@[simp] def nesting : Value → Nat
  | .ref v => nesting v
  | .slice xs => 1 + nestingItems xs
  | .struct fs => 1 + nestingFields fs
  | .map kvs => 1 + nestingEntries kvs
  | .marshaler (some text) _ => J.depth text
  | _ => 0

@[simp] def nestingItems : List Value → Nat
  | [] => 0
  | v :: vs => max (nesting v) (nestingItems vs)

@[simp] def nestingFields : List (Tag × Value) → Nat
  | [] => 0
  | (_, v) :: fs => max (nesting v) (nestingFields fs)

@[simp] def nestingEntries : List (String × Value) → Nat
  | [] => 0
  | (_, v) :: kvs => max (nesting v) (nestingEntries kvs)
end

end

/-- The members of the JSON object a struct or a map is written as, in order. -/
def Value.members : Value → Option (List (String × Value))
  | .ref v => v.members
  | .struct fs => some ((fs.filter fun f => !(f.1.omitempty && isEmptyValue f.2)).map
      fun f => (f.1.name, f.2))
  | .map kvs => some kvs
  | _ => none

/-- The member under a name. -/
def Value.member (v : Value) (name : String) : Option Value :=
  v.members.bind fun kvs => (kvs.find? fun e => e.1 == name).map (·.2)

/-- Laws of `encoding/json` the storage format relies on: a marshalled text is no deeper than its
    value, and unless it is too deep for the scanner it is valid and already in the compact form a
    `RawMessage` is rewritten to. -/
structure Json.Lawful (J : Json) : Prop where
  depth_marshal : ∀ v b, marshal J v = some b → J.depth b ≤ nesting J v
  valid_marshal : ∀ v b, marshal J v = some b → J.depth b ≤ maxNestingDepth → J.valid b = true
  compact_marshal : ∀ v b, marshal J v = some b → J.depth b ≤ maxNestingDepth → J.compact b = b

end TaNode
