import VortexMQ.Network.Delays

/-!
# The HTTP server

`internal/api/server.go`: the routes, the handlers, and the bytes of their answers. A request is
served from its start to its end. A handler that waits for a message yields `none` while there is
nothing to return, and so does one that brings the process down.

## What is a parameter

The decoding of request bodies by `encoding/json`, with a law for the texts that the studio sends;
the redirects by which `http.ServeMux` brings a path into its canonical form; and the file server
behind the studio. The multiplexer compares patterns and paths segment by segment and unescapes each
segment first, while the handlers cut `r.URL.Path`, which has been unescaped as a whole. So a
request carries the unescaped segments, and its path is put together from them: a segment may
contain a slash, and then the handlers see two.
-/

namespace VortexMQ

def trimPrefix (front s : Bytes) : Bytes := if front <+: s then s.drop front.length else s

namespace Api

/-! ## Requests and answers -/

structure Request where
  method : Bytes
  /-- What stands between the slashes of the path, unescaped. -/
  segments : List Bytes
  /-- The keys and values of the query string. -/
  query : List (Bytes × Bytes)
  /-- What can be read of the body. -/
  body : Bytes
  /-- Reading the body ends in an error. -/
  bodyFails : Bool
  deriving DecidableEq

namespace Request

def path (r : Request) : Bytes := r.segments.flatMap fun s ↦ 47 :: s

/-- `r.URL.Query().Get(key)`. -/
def get (r : Request) (key : String) : Bytes :=
  ((r.query.find? fun e ↦ e.1 = bytesOf key).map Prod.snd).getD []

end Request

/-- The code, the headers that are set, and the body. -/
structure Reply where
  status : ℕ
  header : List (Bytes × Bytes)
  body : Bytes
  deriving DecidableEq

def httpError (text : Bytes) (status : ℕ) : Reply where
  status := status
  header := [(bytesOf "Content-Type", bytesOf "text/plain; charset=utf-8"),
    (bytesOf "X-Content-Type-Options", bytesOf "nosniff")]
  body := text ++ [10]

def encode (text : Bytes) : Reply where
  status := 200
  header := [(bytesOf "Content-Type", bytesOf "application/json")]
  body := text ++ [10]

open Json

/-- The text of an error, which is not escaped. -/
def errorText (message : Bytes) : Bytes := 123 :: (key "error" ++ 34 :: (message ++ [34, 125]))

def arrayText (texts : List Bytes) : Bytes := 91 :: ([44].intercalate texts ++ [93])

/-- `map[string]any` with `status`, `id` and `topic`; keys are sorted. -/
def doneText (status : String) (id topic : Bytes) : Bytes :=
  123 :: (key "id" ++ quote id ++ field "status" (quote (bytesOf status))
    ++ field "topic" (quote topic) ++ [125])

def Response.render : Response → Reply
  | .error status message => httpError (errorText message) status
  | .published id topic => encode (doneText "published" id topic)

/-- A dead letter by its struct tags. -/
def entryText (c : Codec) (e : DeadLetterEntry) : Bytes :=
  123 :: (key "message" ++ c.marshal e.message ++ field "failed_at" (Decimal.ofInt e.failedAt)
    ++ field "failure_cause" (quote e.failureCause) ++ field "attempts" (Decimal.ofInt e.attempts)
    ++ [125])

/-- A slice of dead letters. It is nil exactly if it is empty: `List` makes a slice only if the
order has an element, and then finds its entry. -/
def entriesText (c : Codec) (es : List DeadLetterEntry) : Bytes :=
  if es = [] then bytesOf "null" else arrayText (es.map (entryText c))

/-- The body by which the studio asks for a replay. -/
def replayText (topic id : Bytes) : Bytes :=
  123 :: (key "topic" ++ (quote topic ++ (field "id" (quote id) ++ [125])))

/-! ## The server -/

/-- A path in canonical form. The last segment may be empty too, but nothing here asks for that. -/
def Request.Canonical (r : Request) : Prop :=
  ∀ s ∈ r.segments, s ≠ [] ∧ s ≠ bytesOf "." ∧ s ≠ bytesOf ".."

structure Server extends Api where
  /-- `json.NewDecoder(r.Body).Decode(&req)` for a replay: topic and identifier. -/
  decodeReplay : Bytes → Bool → Option (Bytes × Bytes)
  decodeReplay_replayText : ∀ topic id, Utf8 topic → Utf8 id →
    decodeReplay (replayText topic id) false = some (topic, id)
  /-- The redirect of `http.ServeMux` to the canonical form of a path. -/
  redirect : Request → Option Reply
  redirect_status : ∀ r reply, redirect r = some reply → reply.status = 301
  redirect_canonical : ∀ r, r.Canonical → redirect r = none
  /-- `http.FileServer`. -/
  studio : Request → Reply

/-- What the handlers take from their environment. -/
structure Env where
  stamp : Stamp
  now : ℤ
  survey : Survey
  /-- The order in which `TopicsList` meets the topics. -/
  order : List Bytes → List Bytes
  order_perm : ∀ names, (order names).Perm names

namespace Server

variable (api : Server) (env : Env) (b : Broker) (r : Request)

def topicsList : List Bytes := env.order b.topics.keys

def handleStats : Reply := encode (b.stats env.survey).marshal

def handleTopics : Reply :=
  encode (123 :: (key "count" ++ Decimal.ofNat (topicsList env b).length
    ++ field "topics" (arrayText ((topicsList env b).map quote)) ++ [125]))

/-- `strings.Split(strings.TrimPrefix(r.URL.Path, "/api/v1/topics/"), "/")`, which is never
empty. -/
def parts : List Bytes := (trimPrefix (bytesOf "/api/v1/topics/") r.path).splitOn 47

def topicName : Bytes := (parts r).headD []

def action : Bytes := (parts r).getD 1 []

/-- `time.Duration(timeoutMs)*time.Millisecond`; a number out of range is clamped, anything else
that is not a number is zero. -/
def timeout : ℤ := wrap64 ((Text.atoi (r.get "timeout_ms")).1 * millisecond)

def handleTopicAction : Option (Reply × Broker) :=
  if topicName r = [] then some (httpError (errorText (bytesOf "missing topic name")) 400, b)
  else if action r = bytesOf "publish" ∧ r.method = bytesOf "POST" then
    (api.publish b (topicName r) (if r.bodyFails then none else some r.body) env.stamp
      env.now).map fun x ↦ (x.1.render, x.2)
  else if action r = bytesOf "consume" ∧ r.method = bytesOf "GET" then
    (b.consume (topicName r) (timeout r)).map fun x ↦
      match x.1 with
      | none => (⟨204, [], []⟩, x.2)
      | some msg => (encode (api.codec.marshal msg), x.2)
  else some (httpError (errorText (bytesOf "unsupported topic action")) 404, b)

/-- The dead letters of one topic. -/
def listOf (limit : ℤ) (name : Bytes) : Option (List DeadLetterEntry) :=
  match b.getTopic name with
  | some t => t.dlq.list 0 limit
  | none => some []

/-- The loop of `handleDLQ` over all topics. -/
def listAll : List Bytes → Option (List DeadLetterEntry)
  | [] => some []
  | name :: names => (listOf b 50 name).bind fun es ↦ (listAll names).map (es ++ ·)

def handleDLQ : Option Reply :=
  (if r.get "topic" ≠ [] then listOf b 100 (r.get "topic") else listAll b (topicsList env b)).map
    fun es ↦ encode (entriesText api.codec es)

def handleDLQReplay : Reply × Broker :=
  if r.method ≠ bytesOf "POST" then
    (httpError (errorText (bytesOf "method not allowed")) 405, b)
  else
    match api.decodeReplay r.body r.bodyFails with
    | none => (httpError (errorText (bytesOf "topic and id required")) 400, b)
    | some (topic, id) =>
        if topic = [] ∨ id = [] then
          (httpError (errorText (bytesOf "topic and id required")) 400, b)
        else
          match b.replayDLQ topic id env.now with
          | (none, b') => (httpError (errorText (bytesOf "failed to replay message")) 404, b')
          | (some msg, b') => (encode (doneText "replayed" msg.id topic), b')

/-- `t.DLQ().Purge()`, if there is such a topic. -/
def purgeOf (name : Bytes) : ℕ × Broker :=
  match b.getTopic name with
  | some t => (t.dlq.purge.1, b.setTopic name { t with dlq := t.dlq.purge.2 })
  | none => (0, b)

/-- The loop of `handleDLQPurge` over all topics. -/
def purgeAll : List Bytes → ℕ → Broker → ℕ × Broker
  | [], count, b => (count, b)
  | name :: names, count, b => purgeAll names (count + (purgeOf b name).1) (purgeOf b name).2

/-- Any method will do. -/
def handleDLQPurge : Reply × Broker :=
  let purged := if r.get "topic" ≠ [] then purgeOf b (r.get "topic")
    else purgeAll (topicsList env b) 0 b
  (encode (123 :: (key "count" ++ Decimal.ofNat purged.1
    ++ field "status" (quote (bytesOf "purged")) ++ [125])), purged.2)

/-- The segments of a pattern. -/
def route (names : List String) : List Bytes := (["api", "v1"] ++ names).map bytesOf

/-- `http.ServeMux` with the patterns of `Start`. Only `/api/v1/topics/` stands for all paths below
it, and `/` for what is left. -/
def serveMux : Option (Reply × Broker) :=
  match api.redirect r with
  | some reply => some (reply, b)
  | none =>
      if r.segments = route ["stats"] then some (handleStats env b, b)
      else if r.segments = route ["topics"] then some (handleTopics env b, b)
      else if route ["topics"] <+: r.segments then api.handleTopicAction env b r
      else if r.segments = route ["dlq"] then (api.handleDLQ env b r).map fun reply ↦ (reply, b)
      else if r.segments = route ["dlq", "replay"] then some (api.handleDLQReplay env b r)
      else if r.segments = route ["dlq", "purge"] then some (handleDLQPurge env b r)
      else some (api.studio r, b)

/-- What `corsMiddleware` sets. -/
def corsHeader : List (Bytes × Bytes) :=
  [(bytesOf "Access-Control-Allow-Origin", bytesOf "*"),
    (bytesOf "Access-Control-Allow-Methods", bytesOf "GET, POST, PUT, DELETE, OPTIONS"),
    (bytesOf "Access-Control-Allow-Headers", bytesOf "Content-Type, Authorization")]

/-- `corsMiddleware`, and behind it the multiplexer. -/
def serve : Option (Reply × Broker) :=
  if r.method = bytesOf "OPTIONS" then some (⟨200, corsHeader, []⟩, b)
  else (api.serveMux env b r).map fun x ↦ ({ x.1 with header := corsHeader ++ x.1.header }, x.2)

end Server

/-! ## A plain server -/

/-- A reader for requests to replay, laid out as the studio lays them out. -/
def readReplay (body : Bytes) (fails : Bool) : Option (Bytes × Bytes) :=
  if fails then none
  else
    (expect (123 :: key "topic") body).bind fun s ↦
      (unquote s).bind fun topic ↦
        (readField "id" unquote topic.2).map fun id ↦ (topic.1, id.1)

private theorem readReplay_replayText {topic id : Bytes} (htopic : Utf8 topic) (hid : Utf8 id) :
    readReplay (replayText topic id) false = some (topic, id) := by
  have hfront : replayText topic id
      = (123 :: key "topic") ++ (quote topic ++ (field "id" (quote id) ++ [125])) := rfl
  rw [readReplay, if_neg Bool.false_ne_true, hfront, expect_append, Option.bind_some,
    unquote_quote htopic, Option.bind_some, readField_field (unquote_quote hid _)]
  rfl

/-- It takes every body for the payload, redirects nothing and has no files. -/
def plainServer : Server where
  codec := MessageJson.codec
  unmarshal _ := ⟨false, none, 0, int64Range_zero⟩
  decodeReplay := readReplay
  decodeReplay_replayText _ _ := readReplay_replayText
  redirect _ := none
  redirect_status _ _ h := absurd h (Option.some_ne_none _).symm
  redirect_canonical _ _ := rfl
  studio _ := httpError (bytesOf "404 page not found") 404

end Api

end VortexMQ
