import TurboCopy.Models

/-!
# JSON values

The text a JSON library prints is represented by the value it parses back to, so
`json.loads(json.dumps(x))` is `x` by representation. Objects keep the order of
their entries, as Python's dictionaries do.
-/

namespace TurboCopy

/-- A JSON value. A number too large for a float, and `NaN`, are floats that are not finite. -/
inductive Json
  | null
  | bool (b : Bool)
  | int (n : ℤ)
  | float (q : ℚ)
  | nonFinite (text : String)
  | str (s : String)
  | arr (items : List Json)
  | obj (fields : List (String × Json))

/-- The content of a file: the text of a JSON value, or anything else. -/
inductive Content
  | json (value : Json)
  | text (raw : String)

namespace Json

/-- `o.get(key)` on the entries of an object. -/
def field (fields : List (String × Json)) (key : String) : Option Json :=
  (fields.find? fun e => e.1 = key).map Prod.snd

def asString : Json → Option String
  | str s => some s
  | _ => none

def ofOption : Option String → Json
  | some s => str s
  | none => null

/-- An optional text: missing and `null` both read as `None`. -/
def optString (fields : List (String × Json)) (key : String) : Option String :=
  (field fields key).bind asString

def strings (l : List String) : Json := arr (l.map str)

/-- Python's truth value. -/
def isTrue : Json → Bool
  | null => false
  | bool b => b
  | int n => n ≠ 0
  | float q => q ≠ 0
  | nonFinite _ => true
  | str s => s ≠ ""
  | arr l => !l.isEmpty
  | obj l => !l.isEmpty

/-! ### Conversions

`none` is an exception. -/

/-- `int(x)`. -/
def toInt? : Json → Option ℤ
  | int n => some n
  | float q => some (if 0 ≤ q then q.floor else q.ceil)
  | bool b => some (if b then 1 else 0)
  | str s => parseInt s
  | _ => none

/-- Whether a value may be in a set and be the key of a dictionary. -/
def hashable : Json → Bool
  | arr _ => false
  | obj _ => false
  | _ => true

/-- `list(x)`. -/
def toList? : Json → Option (List Json)
  | arr l => some l
  | obj l => some (l.map fun e => str e.1)
  | str s => some (s.toList.map fun c => str (String.singleton c))
  | _ => none

/-- The strings of `set(x)`. No other element is equal to an id. -/
def toStrings? (x : Json) : Option (List String) :=
  x.toList?.bind fun l => if l.all hashable then some (l.filterMap asString) else none

/-- An element of a list as the entry of a dictionary. -/
def toEntry? (x : Json) : Option (Json × Json) :=
  match x.toList? with
  | some [k, v] => if k.hashable then some (k, v) else none
  | _ => none

/-- The entries `dict(x)` is made of. -/
def toEntries? : Json → Option (List (Json × Json))
  | obj l => some (l.map fun e => (str e.1, e.2))
  | x => x.toList?.bind fun l => l.mapM toEntry?

/-- An entry replaces the one of the same key; only strings under strings are kept. -/
def addEntry (d : Dict String) : Json × Json → Dict String
  | (str k, str v) => AList.insert k v d
  | (str k, _) => AList.erase k d
  | _ => d

/-- The strings that `dict(x)` has under strings. -/
def toDict? (x : Json) : Option (Dict String) := x.toEntries?.map fun es => es.foldl addEntry ∅

@[simp] theorem toStrings?_strings (l : List String) : toStrings? (strings l) = some l := by
  have hall : (l.map str).all hashable = true := List.all_eq_true.mpr fun x hx => by
    obtain ⟨s, -, rfl⟩ := List.mem_map.mp hx
    rfl
  have hstrings : (l.map str).filterMap asString = l := by
    rw [List.filterMap_map]
    exact List.filterMap_some
  simp only [toStrings?, strings, toList?, Option.bind_some, hall, if_true, hstrings]

theorem toDict?_obj (es : List (String × String)) :
    toDict? (.obj (es.map fun e => (e.1, str e.2))) =
      some (es.foldl (fun d e => AList.insert e.1 e.2 d) ∅) := by
  simp only [toDict?, toEntries?, List.map_map, Option.map_some, List.foldl_map, Function.comp_def]
  rfl

/-- A list of pairs is a dictionary, and so is a list of words of two letters. -/
example : (toDict? (arr [strings ["a", "1"], str "bc"])).map AList.entries =
    some [⟨"b", "c"⟩, ⟨"a", "1"⟩] := by
  decide +kernel

/-! ## Comparing values -/

mutual

/-- Whether two values are the same. -/
def same : Json → Json → Bool
  | null, null => true
  | bool a, bool b => a = b
  | int a, int b => a = b
  | float a, float b => a = b
  | nonFinite a, nonFinite b => a = b
  | str a, str b => a = b
  | arr l, arr l' => sameItems l l'
  | obj l, obj l' => sameFields l l'
  | _, _ => false

def sameItems : List Json → List Json → Bool
  | [], [] => true
  | a :: l, b :: l' => same a b && sameItems l l'
  | _, _ => false

def sameFields : List (String × Json) → List (String × Json) → Bool
  | [], [] => true
  | (k, a) :: l, (k', b) :: l' => k = k' && same a b && sameFields l l'
  | _, _ => false

end

mutual

theorem eq_of_same {a b : Json} (h : same a b = true) : a = b := by
  cases a <;> cases b <;> simp only [same, Bool.false_eq_true, decide_eq_true_eq] at h
  case null.null => rfl
  case arr.arr l l' => rw [eq_of_sameItems h]
  case obj.obj l l' => rw [eq_of_sameFields h]
  all_goals rw [h]

theorem eq_of_sameItems {l l' : List Json} (h : sameItems l l' = true) : l = l' := by
  match l, l' with
  | [], [] => rfl
  | a :: l, b :: l' =>
    obtain ⟨ha, hl⟩ := Bool.and_eq_true_iff.mp h
    rw [eq_of_same ha, eq_of_sameItems hl]

theorem eq_of_sameFields {l l' : List (String × Json)} (h : sameFields l l' = true) : l = l' := by
  match l, l' with
  | [], [] => rfl
  | (k, a) :: l, (k', b) :: l' =>
    obtain ⟨hk, hl⟩ := Bool.and_eq_true_iff.mp h
    obtain ⟨hk, ha⟩ := Bool.and_eq_true_iff.mp hk
    rw [of_decide_eq_true hk, eq_of_same ha, eq_of_sameFields hl]

end

end Json

/-- Whether two contents are the same. -/
def Content.same : Content → Content → Bool
  | .json a, .json b => a.same b
  | .text a, .text b => a = b
  | _, _ => false

theorem Content.eq_of_same {a b : Content} (h : a.same b = true) : a = b := by
  cases a <;> cases b <;> simp only [same, Bool.false_eq_true, decide_eq_true_eq] at h
  case json.json a b => rw [Json.eq_of_same h]
  case text.text a b => rw [h]

end TurboCopy
