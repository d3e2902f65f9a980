import PipelineConfig.Schema.Build

/-!
# Fields of the built-in stages

Most fields of the built-in stages are single values with a default. The fields
that several stages share are declared here once. Explanations and tags are not
built step by step: they are set on a field as they stand in the catalog.
-/

namespace PipelineConfig

namespace Schema

/-- The field has this explanation for people. -/
def withDescription (description : String) (node : Schema) : Schema :=
  node.withHeader { node.header with description := some description }

/-- The field has this tag for the pipeline runtime. -/
def withDirection (direction : String) (node : Schema) : Schema :=
  node.withHeader { node.header with direction := some direction }

end Schema

namespace Builtin

open Schema

/-- A text with a default. -/
def text (value : String) : Schema := anyString.withDefault (.string value)

/-- A whole number with a default. -/
def count (value : Int) : Schema := anyInteger.withDefault (.number (.integer value))

/-- A truth value with a default. -/
def flag (value : Bool) : Schema := anyBoolean.withDefault (.bool value)

/-- A length of time with a default. -/
def duration (value : String) : Schema :=
  (text value).withDescription "possible units: (s)econd, (m)inute, (h)ours"

/-- One of the given texts. -/
def choice (texts : List String) : Schema := leaf {} .string (texts.map .string)

/-- An array without repeated elements. -/
def distinctList (items : Schema) : Schema := array {} true items

/-- One fifth, as near as a binary64 number comes to it. -/
def oneFifth : Binary64 := ⟨false, 0x3FC999999999999A, by decide⟩

/-- The name that a topic has unless events say otherwise. -/
def defaultTopic : Schema := text "event-v2-\x7bapp_name\x7d\x7bapp_env\x7d-default"

/-- The brokers to turn to. -/
def bootstrapServers : Schema := anyString.withTitle "Bootstrap Servers"

/-- The thread pool that waits for brokers. -/
def dispatcher : Schema := text "akka.kafka.default-dispatcher"

/-- The address of a request. -/
def requestUri : Schema :=
  anyString.asRequired.withDescription
    "when event does not include url info, use this default one"

/-- The method of a request. -/
def requestMethod : Schema :=
  choice ["POST", "GET", "PUT", "OPTIONS", "DELETE", "HEAD", "PATCH"]

/-- The headers of a request. -/
def requestHeaders : Schema := anyObject.withTitle "Headers"

/-- How a request is sent again after a failure. -/
def retrySender : Schema :=
  form [
    ("min-backoff", text "1 s"),
    ("max-backoff", text "30 s"),
    ("random-factor", anyNumber.withDefault (.number (.float oneFifth))),
    ("retry-duration", text "12 h")]

/-- The connections kept open for requests. -/
def connectionPool : Schema :=
  (form [
    ("max-connections", count 32),
    ("min-connections", count 0),
    ("max-retries", count 1),
    ("max-open-requests", count 256),
    ("pipelining-limit", count 1),
    ("idle-timeout", duration "30 s")]).withTitle "Http Connection Pool"

end Builtin

end PipelineConfig
