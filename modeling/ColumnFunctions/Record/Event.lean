import ColumnFunctions.Json.Shape
import ColumnFunctions.Record.Scalar

namespace ColumnFunctions

open Json

structure EventRecord where
  eventId : Option String := none
  timestamp : Int64 := 0
  eventType : Option String := none
  uniqueId : Option String := none
  deviceId : Option String := none
  platform : Option String := none
  osVersion : Option String := none
  networkType : Option String := none
  screenHeight : Int32 := 0
  screenWidth : Int32 := 0
  zoneOffset : Int32 := 0
  systemLanguage : Option String := none
  countryCode : Option String := none
  sdkVersion : Option String := none
  appVersion : Option String := none
  appId : Option String := none
  deriving DecidableEq

namespace EventRecord

abbrev Source (ν : Type) := ν → Except Complaint (Option Scalar)

variable {ν : Type}

def textField (source : Source ν) (name : String)
    (set : Option String → EventRecord → EventRecord) : Field ν EventRecord where
  name := name
  read v := do return set ((← source v).map Scalar.toText)

/-- An integer field. Null reads as zero. -/
def integerField {α : Type} [OfNat α 0] (source : Source ν) (convert : Scalar → Except Misfit α)
    (name : String) (set : α → EventRecord → EventRecord) : Field ν EventRecord where
  name := name
  read v := do
    match ← source v with
    | some s =>
      match convert s with
      | .ok n => return set n
      | .error m => throw (.ofMisfit m)
    | none => return set 0

def shape (source : Source ν) : Shape ν EventRecord where
  name := "EventRecord"
  required := false
  fields :=
    let text := textField source
    let long := integerField source Scalar.toInt64
    let short := integerField source Scalar.toInt32
    [text "event_id" fun s r ↦ { r with eventId := s },
      long "timestamp" fun n r ↦ { r with timestamp := n },
      text "event_type" fun s r ↦ { r with eventType := s },
      text "unique_id" fun s r ↦ { r with uniqueId := s },
      text "device_id" fun s r ↦ { r with deviceId := s },
      text "platform" fun s r ↦ { r with platform := s },
      text "os_version" fun s r ↦ { r with osVersion := s },
      text "network_type" fun s r ↦ { r with networkType := s },
      short "screen_height" fun n r ↦ { r with screenHeight := n },
      short "screen_width" fun n r ↦ { r with screenWidth := n },
      short "zone_offset" fun n r ↦ { r with zoneOffset := n },
      text "system_language" fun s r ↦ { r with systemLanguage := s },
      text "country_code" fun s r ↦ { r with countryCode := s },
      text "sdk_version" fun s r ↦ { r with sdkVersion := s },
      text "app_version" fun s r ↦ { r with appVersion := s },
      text "app_id" fun s r ↦ { r with appId := s }]

def ofNode (room : Nat) (node : Node) : Except Complaint EventRecord :=
  Shape.read (fun room ↦ shape (Scalar.ofNode? room)) {} room node

def ofValue (v : Value) : Except Complaint EventRecord :=
  (shape Scalar.ofValueOrNull).ofValue {} v

def toValue (r : EventRecord) : Value :=
  .object
    [("event_id", .ofText? r.eventId), ("timestamp", .ofInt r.timestamp.toInt),
      ("event_type", .ofText? r.eventType), ("unique_id", .ofText? r.uniqueId),
      ("device_id", .ofText? r.deviceId), ("platform", .ofText? r.platform),
      ("os_version", .ofText? r.osVersion), ("network_type", .ofText? r.networkType),
      ("screen_height", .ofInt r.screenHeight.toInt),
      ("screen_width", .ofInt r.screenWidth.toInt), ("zone_offset", .ofInt r.zoneOffset.toInt),
      ("system_language", .ofText? r.systemLanguage), ("country_code", .ofText? r.countryCode),
      ("sdk_version", .ofText? r.sdkVersion), ("app_version", .ofText? r.appVersion),
      ("app_id", .ofText? r.appId)]

end EventRecord

end ColumnFunctions
