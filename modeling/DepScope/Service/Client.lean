import DepScope.Error
import DepScope.Pattern.Table
import DepScope.Score.Record
import DepScope.Service.Credentials

/-!
# DepScope.Service.Client

The requests to the scoring service, and what its replies mean.

1. Scores come as a stream of lines, one record each. Blank lines are passed over; the first line
   that is no record ends the stream with an error, and the records before it count.
2. Account settings are any data; a reply without success carries its reason as text.
3. The organizations of a key are named in a record, and only status 200 says that the key is good.
4. The table of manifest patterns is fetched until it has been read once.
-/

namespace DepScope.Service

open Text Package Score

/-- A request. -/
structure Request where
  method : String
  path : String
  authorization : Option String := none
  body : String := ""
deriving DecidableEq

/-- What becomes of a request. -/
inductive Reply where
  /-- There is no connection. -/
  | unreachable
  /-- There is a connection, but nothing ever comes. -/
  | silent
  /-- A status and a body, which stays open after these bytes unless it is complete. -/
  | answered (status : Nat) (body : List UInt8) (complete : Bool)
deriving DecidableEq

/-- How requests are answered. -/
abbrev Network := Request → Reply

/-- No request gets through. -/
def Network.down : Network := fun _ => .unreachable

/-- An address without the slashes at its end. -/
def baseUrl (url : String) : String :=
  String.ofList (url.toList.reverse.dropWhile (· == '/')).reverse

/-- The address of the service unless another one is given. -/
def defaultUrl : String := "https://api.socket.dev"

/-! ## Status codes -/

/-- Does a status mean success? -/
def isSuccess (status : Nat) : Bool :=
  200 ≤ status && status < 300

/-- The usual phrases for status codes other than success. -/
def reasons : List (Nat × String) :=
  [(300, "Multiple Choices"), (301, "Moved Permanently"), (302, "Found"), (303, "See Other"),
   (304, "Not Modified"), (305, "Use Proxy"), (307, "Temporary Redirect"),
   (308, "Permanent Redirect"), (400, "Bad Request"), (401, "Unauthorized"),
   (402, "Payment Required"), (403, "Forbidden"), (404, "Not Found"),
   (405, "Method Not Allowed"), (406, "Not Acceptable"), (407, "Proxy Authentication Required"),
   (408, "Request Timeout"), (409, "Conflict"), (410, "Gone"), (411, "Length Required"),
   (412, "Precondition Failed"), (413, "Payload Too Large"), (414, "URI Too Long"),
   (415, "Unsupported Media Type"), (416, "Range Not Satisfiable"), (417, "Expectation Failed"),
   (418, "I'm a teapot"), (421, "Misdirected Request"), (422, "Unprocessable Entity"),
   (423, "Locked"), (424, "Failed Dependency"), (425, "Too Early"), (426, "Upgrade Required"),
   (428, "Precondition Required"), (429, "Too Many Requests"),
   (431, "Request Header Fields Too Large"), (451, "Unavailable For Legal Reasons"),
   (500, "Internal Server Error"), (501, "Not Implemented"), (502, "Bad Gateway"),
   (503, "Service Unavailable"), (504, "Gateway Timeout"), (505, "HTTP Version Not Supported"),
   (506, "Variant Also Negotiates"), (507, "Insufficient Storage"), (508, "Loop Detected"),
   (510, "Not Extended"), (511, "Network Authentication Required")]

/-- The phrase of a status, empty for one that is not usual. -/
def reason (status : Nat) : String :=
  (reasons.lookup status).getD ""

/-! ## Scores -/

/-- The request for the scores of packages. -/
def scoresRequest (purls : List Purl) (authorization : String) : Request where
  method := "POST"
  path := "/v0/purl?alerts=true&compact=false"
  authorization := some authorization
  body := (Json.object [("components",
    .array (purls.map fun p => Json.object [("purl", Json.text p.text)]))]).compact

/-- How a stream of records ends. -/
inductive StreamEnd where
  | finished
  | failed (e : Error)
  /-- It stays open and nothing more comes. -/
  | stalled
deriving DecidableEq

/-- The records of a stream, and how it ends. -/
structure Delivery where
  records : List Record
  ending : StreamEnd

/-- Cuts bytes at the line feeds: the lines that are complete, and what follows the last feed. -/
def cutLines : List UInt8 → List (List UInt8) × List UInt8
  | [] => ([], [])
  | b :: bs =>
    let (ls, rest) := cutLines bs
    if b = 10 then ([] :: ls, rest)
    else match ls with
      | [] => ([], b :: rest)
      | l :: ls => ((b :: l) :: ls, rest)

/-- A line without a carriage return at its end. -/
def withoutReturn (line : List UInt8) : List UInt8 :=
  if line.getLast? = some 13 then line.dropLast else line

/-- The lines of a body; an incomplete last line counts once the body is complete. -/
def bodyLines (body : List UInt8) (complete : Bool) : List (List UInt8) :=
  let (ls, rest) := cutLines body
  ls.map withoutReturn ++ if complete && !rest.isEmpty then [rest] else []

/-- The records of lines, up to the first line that is no record. -/
def readRecords (ending : StreamEnd) : List (List UInt8) → Delivery
  | [] => ⟨[], ending⟩
  | l :: ls =>
    match decodeStrict? l with
    | none => ⟨[], .failed .io⟩
    | some line =>
      if (trim line.toList).isEmpty then readRecords ending ls
      else match Record.read? line with
        | none => ⟨[], .failed .json⟩
        | some r =>
          let more := readRecords ending ls
          ⟨r :: more.records, more.ending⟩

/-- What a reply to a request for scores delivers. -/
def readScores : Reply → Except Error Delivery
  | .unreachable => .error .http
  | .silent => .ok ⟨[], .stalled⟩
  | .answered status body complete =>
    if isSuccess status then
      .ok (readRecords (if complete then .finished else .stalled) (bodyLines body complete))
    else .error (.api ("Unexpected response from Socket API: " ++ toString status ++ " "
      ++ reason status))

/-! ## Accounts -/

/-- The request for the settings of an account. -/
def settingsRequest (key : String) : Request where
  method := "POST"
  path := "/v0/settings"
  authorization := some (basic key)

/-- The settings of an account. -/
def readSettings : Reply → Except Error Json.Value
  | .answered status body _ =>
    if isSuccess status then
      match (decodeStrict? body).bind Json.read? |>.bind (Json.Value.data? 0) with
      | some v => .ok v
      | none => .error .http
    else .error (.api (decodeLossy body))
  | _ => .error .http

/-- The request for the organizations of a key. -/
def organizationsRequest (authorization : String) : Request where
  method := "GET"
  path := "/v0/organizations"
  authorization := some authorization

/-- An organization: its name and its plan. -/
structure Organization where
  name : String
  plan : String
deriving DecidableEq

/-- Decodes an organization. -/
def Organization.ofJson? (v : Json.Value) : Option Organization := do
  match ← v.fields? ["id", "name", "image", "plan"] with
  | [id, some name, image, some plan] =>
    let _ ← Json.orDefault? "" Json.Value.text? id
    let _ ← Json.orNull? Json.Value.text? image
    return ⟨← name.text?, ← plan.text?⟩
  | _ => none

/-- Decodes the organizations of a key, sorted by their identifiers. -/
def organizations? (v : Json.Value) : Option (List Organization) := do
  match ← v.fields? ["organizations"] with
  | [some os] => return (← os.map? Organization.ofJson?).map (·.2)
  | _ => none

/-- How the first of several organizations is shown. -/
def label? (os : List Organization) : Option String :=
  os.head?.map fun o => o.name ++ " (" ++ o.plan ++ ")"

/-- The organizations of a key; `none` if the key is not accepted. -/
def readOrganizations : Reply → Except Error (Option (List Organization))
  | .answered status body _ =>
    if status ≠ 200 then .ok none
    else match (decodeStrict? body).bind Json.read? |>.bind organizations? with
      | some os => .ok (some os)
      | none => .error .http
  | _ => .error .http

/-! ## Patterns -/

/-- The request for the table of manifest patterns. -/
def patternsRequest : Request where
  method := "GET"
  path := "/v0/report/supported"

/-- The table in a reply. -/
def readTable? : Reply → Option Pattern.Table
  | .answered status body _ =>
    if isSuccess status then (Json.read? (decodeLossy body)).bind Pattern.Table.ofJson? else none
  | _ => none

/-- Where patterns come from: the service, once it has been read, or those that are built in. -/
structure Registry where
  online : Bool
  fetched : Option Pattern.Patterns := none

namespace Registry

/-- Only the patterns that are built in. -/
def offline : Registry := ⟨false, none⟩

/-- The patterns of the service. -/
def remote : Registry := ⟨true, none⟩

/-- The request that has to be made to ask for patterns, if any. -/
def request? (r : Registry) : Option Request :=
  if r.online && r.fetched.isNone then some patternsRequest else none

/-- Asks for patterns, where `reply` is what the request gets if one is made. A table that was read
is kept; a failure is not. -/
def ask (r : Registry) (reply : Reply) : Pattern.Patterns × Registry :=
  match r.fetched with
  | some ps => (ps, r)
  | none =>
    match r.request?.bind fun _ => readTable? reply with
    | some t =>
      let ps := Pattern.Patterns.ofTable t
      (ps, { r with fetched := some ps })
    | none => (.builtIn, r)

end Registry

end DepScope.Service
