import AssetBridge.Text.Case

/-!
# Log levels

Events are reported from a level on. A level has a name, and two of them have a second one.

## Main definitions

* `Level`, `Level.rank`: the levels and their places in the order.
* `Level.name`, `Level.ofName?`: names, read in capitals.
-/

namespace AssetBridge

/-- How grave an event is. `notSet` stands below every event. -/
inductive Level where
  | notSet
  | debug
  | info
  | warning
  | error
  | critical
deriving DecidableEq, Repr

namespace Level

/-- The place of a level in the order. -/
def rank : Level → Nat
  | notSet => 0
  | debug => 10
  | info => 20
  | warning => 30
  | error => 40
  | critical => 50

/-- The name of a level. -/
def name : Level → Text
  | notSet => "NOTSET".toList
  | debug => "DEBUG".toList
  | info => "INFO".toList
  | warning => "WARNING".toList
  | error => "ERROR".toList
  | critical => "CRITICAL".toList

/-- The levels of events, from the mildest to the gravest. -/
def ofEvents : List Level := [debug, info, warning, error, critical]

/-- The level that an event needs not reach unless something else is asked for. -/
def usual : Level := warning

/-- The names by which a level is chosen. -/
def byName : List (Text × Level) :=
  (notSet :: ofEvents).map (fun l => (l.name, l)) ++
    [("WARN".toList, warning), ("FATAL".toList, critical)]

/-- The level with a name, whatever its case. -/
def ofName? (s : Text) : Option Level :=
  (byName.find? fun (name, _) => name = s.map Text.capital).map Prod.snd

theorem ofName?_name (l : Level) : ofName? l.name = some l := by
  cases l <;> rfl

end Level

end AssetBridge
