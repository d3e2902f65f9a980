import PipelineConfig.Catalog.Builtin.Fields

/-!
# Built-in sources
-/

namespace PipelineConfig.Builtin

open Schema

/-- Events that come in over HTTP. -/
def httpSource : Schema :=
  (form [
    ("interface", text "0.0.0.0"),
    ("port",
      leaf { default := some (.number (.integer 8000)), required := true }
        (.integer ⟨some (.integer 1024), some (.integer 65535)⟩) []),
    ("format", choice ["ActivityStreams"]),
    ("succeeded-response", text "ok"),
    ("server",
      (form [
        ("max-connections", count 1024),
        ("request-timeout", duration "10 s"),
        ("idle-timeout", duration "60 s"),
        ("bind-timeout", duration "1 s"),
        ("linger-timeout", duration "1 min")]).withTitle "Server")]).withTitle "Http Source"

/-- How a consumer of topics polls and commits. -/
def consumerSettings : Schema :=
  (form [
    ("use-dispatcher", dispatcher),
    ("poll-interval", text "50ms"),
    ("poll-timeout", text "50ms"),
    ("stop-timeout", text "30s"),
    ("close-timeout", text "20s"),
    ("commit-timeout", text "15s"),
    ("commit-time-warning", text "1s"),
    ("wakeup-timeout", text "3s"),
    ("max-wakeups", count 10),
    ("wait-close-partition", text "500ms"),
    ("wakeup-debug", flag true)]).withTitle "Akka Kafka Configuration"

/-- Events that come from topics. -/
def kafkaSource : Schema :=
  (form [
    ("bootstrap-servers", bootstrapServers.asRequired),
    ("group-id", (text "").withTitle "Group Id"),
    ("topics",
      (distinctList (anyString.withTitle "topic")).withTitle "Subscribed Topics" |>.asRequired),
    ("topic-pattern",
      (anyString.withTitle "Subscribed Topic Pattern").withDescription
        "supports regex pattern, if \"Subscribed Topics\" is set, will use it instead"
        |>.asRequired),
    ("max-concurrent-partitions", count 1024),
    ("commit-max-batches", count 50),
    ("akka-kafka", consumerSettings),
    ("properties", anyObject.withTitle "Kafka Consumer Properties")]).withTitle "Kafka Source"

end PipelineConfig.Builtin
