namespace BatchFlow

/-!
# Kinds

* `Kind` — a name for what data means. Any name is a kind; `*` stands for all of them.
* `Kind.compatible produced accepted` — whether data of some kinds may go where others are
  accepted.
-/

/-- A name for what data means. -/
structure Kind where
  name : String
deriving DecidableEq, Repr

namespace Kind

/-- The kind that fits every other one. -/
def wildcard : Kind := ⟨"*"⟩
def image : Kind := ⟨"image"⟩
def objectDetection : Kind := ⟨"object_detection_prediction"⟩
def classification : Kind := ⟨"classification_prediction"⟩
def listOfValues : Kind := ⟨"list_of_values"⟩

/-- Kinds that put no restriction on data: none at all, or the wildcard among others. -/
def unrestricted (kinds : List Kind) : Bool := kinds.isEmpty || kinds.contains wildcard

/-- Whether data of the produced kinds may go where the accepted kinds are asked for. -/
def compatible (produced accepted : List Kind) : Bool :=
  unrestricted produced || unrestricted accepted || produced.any accepted.contains

/-- The names in a row, for messages. -/
def join (kinds : List Kind) : String := ", ".intercalate (kinds.map (·.name))

end Kind

end BatchFlow
