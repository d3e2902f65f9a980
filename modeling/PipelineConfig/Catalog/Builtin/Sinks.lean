import PipelineConfig.Catalog.Builtin.Fields

/-!
# Built-in sinks
-/

namespace PipelineConfig.Builtin

open Schema

/-- Sends events over HTTP. -/
def httpSink : Schema :=
  (form [
    ("default-request",
      (form [
        ("method", requestMethod.asRequired),
        ("uri", requestUri),
        ("protocol", text "HTTP/1.1"),
        ("headers", requestHeaders)]).withTitle "Server" |>.asRequired),
    ("concurrent-requests", count 1),
    ("request-buffer-size", count 100),
    ("expected-response", text "ok"),
    ("allow-extra-signals", flag true),
    ("content-type", text "text"),
    ("use-https-connection-pool", flag false),
    ("use-retry-sender", flag true),
    ("retry-sender", retrySender),
    ("pool", connectionPool)]).withTitle "Http Sink"

/-- Sends events to devices. -/
def firebaseSink : Schema :=
  (form [
    ("default-request",
      (form [
        ("method", requestMethod),
        ("uri", requestUri),
        ("auth-key", (anyString.withTitle "Authorization Key").asRequired),
        ("protocol", text "HTTP/1.1"),
        ("headers", requestHeaders)]).withTitle "Server" |>.asRequired),
    ("concurrent-requests", count 1),
    ("request-buffer-size", count 100),
    ("expected-response", text ""),
    ("allow-extra-signals", flag false),
    ("use-retry-sender", flag true),
    ("retry-sender", retrySender),
    ("pool", connectionPool)]).withTitle "Firebase Sink"

/-- Sends events to topics. -/
def kafkaSink : Schema :=
  (form [
    ("bootstrap-servers", (bootstrapServers.withDefault (.string "")).asRequired),
    ("default-topic", defaultTopic),
    ("akka-kafka",
      (form [
        ("parallelism", count 100),
        ("close-timeout", text "60 s"),
        ("use-dispatcher", dispatcher)]).withTitle "Akka Kafka Settings"),
    ("properties",
      (form [
        ("acks", text "all"),
        ("retries", count 30),
        ("max.in.flight.requests.per.connection", count 5),
        ("enable.idempotence", flag true)]).withTitle "Kafka Producer Properties")]).withTitle
    "Kafka Sink"

end PipelineConfig.Builtin
