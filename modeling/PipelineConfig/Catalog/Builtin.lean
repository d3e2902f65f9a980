import PipelineConfig.Catalog.Basic
import PipelineConfig.Catalog.Builtin.Operators
import PipelineConfig.Catalog.Builtin.Sinks
import PipelineConfig.Catalog.Builtin.Sources

/-!
# The built-in catalog
-/

namespace PipelineConfig

open Builtin

/-- The catalog that is there without any definition. -/
def Catalog.builtin : Catalog where
  categories := [
    (.source, [("http", httpSource), ("kafka", kafkaSource)]),
    (.operator, [("tnc-topic-resolver", topicResolver), ("filter", eventFilter),
      ("cassandra", cassandraOperator), ("decoupler", decoupler), ("file", fileOperator)]),
    (.sink, [("http", httpSink), ("firebase", firebaseSink), ("kafka", kafkaSink)])]

end PipelineConfig
