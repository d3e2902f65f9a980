/-!
# Stage categories

Every stage of a pipeline is a source, an operator or a sink.
-/

namespace PipelineConfig

/-- The role of a stage in a pipeline. -/
inductive Category where
  /-- Where events come from. -/
  | source
  /-- What changes events. -/
  | operator
  /-- Where events go. -/
  | sink
  deriving DecidableEq, Repr

namespace Category

/-- All categories, in the order in which they are listed. -/
def all : List Category := [source, operator, sink]

/-- The name of the category. -/
def name : Category → String
  | source => "source"
  | operator => "operator"
  | sink => "sink"

/-- The category of the given name. -/
def ofName? (name : String) : Option Category := all.find? fun category => category.name == name

/-- The place of the category among all. -/
def rank : Category → Nat
  | source => 0
  | operator => 1
  | sink => 2

end Category

end PipelineConfig
