import SuparnaD.Api.Request
import SuparnaD.Messaging.PublishEvent

/-!
# Publish requests

The functions of `api/publish_event.c`.

## Main definitions

* `openStoredTopic`, `getOrCreateTopic`.
* `handlePublishRequest`.
-/

namespace SuparnaD

section

open Broker

/-- The branch of `get_or_create_topic` for a topic that exists. The path is cut to 511 bytes. -/
def openStoredTopic (topicName : Bytes) : Broker (Option Topic) := do
  if !(← malloc) then
    return none
  if !(← malloc) then
    return none
  let filePath := (topicPath topicName defaultTopicBasePath).take 511
  if !(← malloc) then
    return none
  if !(← chunkInit filePath) then
    return none
  if (← chunkLoad) ≠ 0 then
    chunkFree
    return none
  return some ⟨some topicName, some filePath⟩

def getOrCreateTopic (topicName : Bytes) : Broker (Option Topic) := do
  if ← topicExists topicName defaultTopicBasePath then
    openStoredTopic topicName
  else
    createTopic topicName defaultTopicBasePath

end

open ApiM

def topicAndDataExpected : Bytes :=
  ascii "\x7b\"error\":\"Invalid request. Expected JSON with 'topic' and 'data' fields\"\x7d"

def topicNotFound : Bytes := ascii "\x7b\"error\":\"Failed to get or create topic\"\x7d"

def eventPublished : Bytes :=
  ascii "\x7b\"status\":\"success\",\"message\":\"Event published successfully\"\x7d"

def publishFailed : Bytes := ascii "\x7b\"error\":\"Failed to publish event\"\x7d"

/-- The treatment of a whole body. The topic is freed at the end. -/
def publishBody (json : Bytes) : ApiM MhdResult := do
  let topicName ← extractJsonString json (ascii "topic")
  let data ← extractJsonString json (ascii "data")
  match topicName, data with
  | some topicName, some data =>
    match ← broker (getOrCreateTopic topicName) with
    | none => reply 500 topicNotFound applicationJson
    | some _ =>
      record (.publish topicName data)
      let publishResult ← broker (publishEventString (some data))
      let result ←
        if publishResult = 0 then
          reply 200 eventPublished applicationJson
        else
          reply 500 publishFailed applicationJson
      broker Broker.chunkFree
      return result
  | _, _ => reply 400 topicAndDataExpected applicationJson

def handlePublishRequest (uploadData : Bytes) (conCls : Option RequestBuffer) :
    ApiM HandlerReturn :=
  handleRequest publishBody uploadData conCls

end SuparnaD
