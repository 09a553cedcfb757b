import Mathlib.Data.Rat.Defs
import Remindo.Foundation.Text

namespace Remindo.Foundation

/-- A JSON value; the members of an object in their order. -/
inductive Json
  | null
  | bool (b : Bool)
  | int (n : ℤ)
  | float (q : ℚ)
  | str (s : Text)
  | arr (items : List Json)
  | obj (members : List (String × Json))

namespace Json

def get? (members : List (String × Json)) (key : String) : Option Json :=
  (members.find? fun m ↦ m.1 = key).map Prod.snd

/-- A model that forbids extra fields has no others than these. -/
def OnlyKeys (keys : List String) (members : List (String × Json)) : Prop :=
  ∀ m ∈ members, m.1 ∈ keys

instance (keys : List String) (members : List (String × Json)) : Decidable (OnlyKeys keys members) :=
  inferInstanceAs (Decidable (∀ m ∈ members, m.1 ∈ keys))

variable {key key' : String} {value : Json} {keys : List String} {members : List (String × Json)}

@[simp] theorem get?_nil : get? [] key = none := rfl

@[simp] theorem get?_cons :
    get? ((key', value) :: members) key = if key' = key then some value else get? members key := by
  by_cases h : key' = key <;> simp [get?, h]

theorem onlyKeys_map : OnlyKeys (members.map Prod.fst) members := fun _ ↦ List.mem_map_of_mem

theorem get?_eq_none (h : OnlyKeys keys members) (hkey : key ∉ keys) : get? members key = none := by
  rw [get?, Option.map_eq_none_iff, List.find?_eq_none]
  intro m hm heq
  exact hkey (of_decide_eq_true heq ▸ h m hm)

end Json

end Remindo.Foundation
