import SuparnaD.Api.Request

/-!
# Requests that create a topic

The handler of `api/create_topic.c`. Without a `base_path` in the body it uses the default one.

## Main definitions

* `handleCreateTopicRequest`.
-/

namespace SuparnaD

open ApiM

def topicExpected : Bytes :=
  ascii "\x7b\"error\":\"Invalid request. Expected JSON with 'topic' field\"\x7d"

def topicAlreadyExists : Bytes := ascii "\x7b\"error\":\"Topic already exists\"\x7d"

def createFailed : Bytes := ascii "\x7b\"error\":\"Failed to create topic\"\x7d"

/-- The success text, which `snprintf` cuts to 511 bytes. -/
def topicCreated (topicName filePath : Bytes) : Bytes :=
  (ascii "\x7b\"status\":\"success\",\"message\":\"Topic created successfully\",\"topic\":\"" ++
    topicName ++ ascii "\",\"path\":\"" ++ filePath ++ ascii "\"\x7d").take 511

/-- The treatment of a whole body. The topic is freed at the end. -/
def createBody (json : Bytes) : ApiM MhdResult := do
  let topicName ← extractJsonString json (ascii "topic")
  let basePath ← extractJsonString json (ascii "base_path")
  match topicName with
  | none => reply 400 topicExpected applicationJson
  | some topicName =>
    let pathToUse := basePath.getD defaultTopicBasePath
    if ← broker (topicExists topicName pathToUse) then
      reply 409 topicAlreadyExists applicationJson
    else
      record (.create topicName pathToUse)
      match ← broker (createTopic topicName pathToUse) with
      | none => reply 500 createFailed applicationJson
      | some topic =>
        let result ←
          reply 200 (topicCreated topicName (topic.filePath.getD [])) applicationJson
        broker Broker.chunkFree
        return result

def handleCreateTopicRequest (uploadData : Bytes) (conCls : Option RequestBuffer) :
    ApiM HandlerReturn :=
  handleRequest createBody uploadData conCls

end SuparnaD
