import DepScope.Json.Value
import DepScope.Text.Base64

/-!
# DepScope.Service.Credentials

Which key requests are made with: one that is given, else that of the environment, else that of the
session settings on disk, else the public one. An empty key counts as none.

The session settings are the Base64 text of a record with the key.
-/

namespace DepScope.Service

open Text

/-- The key for use without an account. -/
def publicKey : String := "sktsec_t_--RAN5U4ivauy4w37-6aoKyYPDt5ZbaT5JBVMqiwKo_api"

/-- Is this the key for use without an account? -/
def isPublicKey (key : String) : Bool :=
  key == publicKey

/-- The environment variable with the key. -/
def keyVariable : String := "SOCKET_SECURITY_API_KEY"

/-- Authorization by the key itself. -/
def bearer (key : String) : String :=
  "Bearer " ++ key

/-- Authorization by the key as a user name without a password. -/
def basic (key : String) : String :=
  "Basic " ++ String.ofList (Base64.urlSafe.encode (Text.encode (key ++ ":")))

/-- A key that is not empty. -/
def usable (key : Option String) : Option String :=
  key.filter (!·.isEmpty)

/-- The key in the settings of a session. -/
def settingsKey? (settings : List UInt8) : Option String := do
  let text ← decodeStrict? settings
  let bytes ← Base64.standard.decode? (trim text.toList)
  match ← (← Json.read? (← decodeStrict? bytes)).fields? ["apiKey"] with
  | [field] => usable (← Json.orNull? Json.Value.text? field)
  | _ => none

/-- Where a key may come from. -/
structure KeySources where
  given : Option String := none
  environment : Option String := none
  /-- The bytes of the settings file, if it is there. -/
  settings : Option (List UInt8) := none

/-- The key requests are made with. -/
def KeySources.key (s : KeySources) : String :=
  ((usable s.given).or ((usable s.environment).or (s.settings.bind settingsKey?))).getD publicKey

end DepScope.Service
