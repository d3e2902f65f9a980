import PipelineConfig.Catalog.Builtin.Fields

/-!
# Built-in operators
-/

namespace PipelineConfig.Builtin

open Schema

/-- Chooses the topic of an event. -/
def topicResolver : Schema :=
  (form [
    ("default-topic",
      (defaultTopic.withTitle "Default Topic").withDescription
        "supports substitutes: \x7bapp_name\x7d, \x7bapp_env\x7d, \x7bstory_name\x7d")]).withTitle
    "TNC Topic Resolver Transform"

/-- Regular expressions for the names of events. -/
def eventNames (title : String) : Schema :=
  (distinctList (anyString.withTitle "Event Name Regex")).withTitle title

/-- Regular expressions for the names of channels. -/
def channelNames (title : String) : Schema :=
  (distinctList (anyString.withTitle "Channel Regex")).withTitle title

/-- Lets only some events through. -/
def eventFilter : Schema :=
  (form [
    ("event-name-white-list", eventNames "Event Name White List"),
    ("event-name-black-list", eventNames "Event Name Black List"),
    ("channel-white-list", channelNames "Channel White List"),
    ("channel-black-list", channelNames "Channel Black List"),
    ("allowed-transport-modes",
      (distinctList ((choice ["SYNC_PLUS", "ASYNC", "BOTH", "NONE"]).withTitle
        "Transport Mode")).withTitle "Allowed Transport Modes"
        |>.withDefault (.array [.string "ASYNC", .string "BOTH", .string "NONE"])),
    ("only-extras", anyObject.withTitle "Only Matched Extra Infos")]).withTitle
    "TNC Event Filter"

/-- Records events in a database. -/
def cassandraOperator : Schema :=
  form [
    ("contact-points", (distinctList (anyString.withTitle "host")).asRequired),
    ("port", (count 9042).asRequired),
    ("parallelism", count 3)]

/-- Puts a buffer between what comes before and after it. -/
def decoupler : Schema :=
  (form [
    ("buffer-size", count 10000),
    ("terminate-delay", duration "10 m"),
    ("secondary-sink",
      (anyString.withDescription "configuration of the failover task").asRequired),
    ("secondary-sink-buffer-size", count 1000)]).withDirection "bidi"

/-- Records events in a file. -/
def fileOperator : Schema :=
  form [
    ("path", anyString.asRequired),
    ("line-delimiter", text "<tab>"),
    ("event-delimiter", text "<newline>#-:#:-#<newline>")]

end PipelineConfig.Builtin
