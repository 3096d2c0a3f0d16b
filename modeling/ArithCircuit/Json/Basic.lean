set_option autoImplicit false

namespace ArithCircuit

-- Numbers that are no natural numbers keep their spelling.
inductive Json where
  | null
  | bool (value : Bool)
  | natural (value : Nat)
  | decimal (spelling : String)
  | string (text : String)
  | array (items : List Json)
  | object (fields : List (String × Json))
deriving Inhabited

namespace Json

-- Sets a field of an object; of two fields with one name the later one counts.
def setField (fields : List (String × Json)) (name : String) (value : Json) :
    List (String × Json) :=
  fields.filter (fun field => field.1 != name) ++ [(name, value)]

def field? (name : String) : Json → Option Json
  | object fields => fields.lookup name
  | _ => none

end Json

end ArithCircuit
