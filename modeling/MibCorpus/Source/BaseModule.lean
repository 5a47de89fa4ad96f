import MibCorpus.Source.Module

/-!
# Base modules

Nearly every module imports from a few base modules that a corpus seldom ships. The library knows
their contents and can stand in for them. The three topmost arcs are not even defined there: they
belong to the notation itself.
-/

namespace MibCorpus

/-- The names that the notation itself gives to topmost arcs. -/
def intrinsicRoots : List (String × Arc) :=
  [("ccitt", 0), ("iso", 1), ("joint-iso-ccitt", 2)]

/-- The topmost arc that the notation itself calls `name`. -/
def intrinsicRoot? (name : String) : Option Arc :=
  intrinsicRoots.lookup name

/-- The base modules. -/
inductive BaseModule where
  | snmpV2Smi
  | snmpV2Tc
  | snmpV2Conf
  | rfc1155Smi
  | rfc1212
  | rfc1215
  deriving DecidableEq

namespace BaseModule

/-- All base modules, in the order in which they are generated. -/
def all : List BaseModule := [snmpV2Smi, snmpV2Tc, snmpV2Conf, rfc1155Smi, rfc1212, rfc1215]

/-- The name of the module. -/
def name : BaseModule → String
  | snmpV2Smi => "SNMPv2-SMI"
  | snmpV2Tc => "SNMPv2-TC"
  | snmpV2Conf => "SNMPv2-CONF"
  | rfc1155Smi => "RFC1155-SMI"
  | rfc1212 => "RFC-1212"
  | rfc1215 => "RFC-1215"

/-- The base module called `n`. -/
def ofName? (n : String) : Option BaseModule := all.find? (·.name == n)

/-! ## Object identifiers -/

/-- A value that no text declares. -/
def oidValue (name : String) (oid : List OidComponent) : Definition :=
  ⟨name, .value oid, .synthetic⟩

/-- A value one arc below another. -/
def below (name parent : String) (arc : Arc) : Definition :=
  oidValue name [.name parent, .arc arc]

/-- The nodes of the second version of the notation. -/
def smiV2Nodes : List Definition :=
  [below "org" "iso" 3, below "dod" "org" 6, below "internet" "dod" 1,
    below "directory" "internet" 1, below "mgmt" "internet" 2, below "mib-2" "mgmt" 1,
    below "transmission" "mib-2" 10, below "experimental" "internet" 3,
    below "private" "internet" 4, below "enterprises" "private" 1, below "security" "internet" 5,
    below "snmpV2" "internet" 6, below "snmpDomains" "snmpV2" 1, below "snmpProxys" "snmpV2" 2,
    below "snmpModules" "snmpV2" 3, oidValue "zeroDotZero" [.arc 0, .arc 0]]

/-- The nodes of the first version of the notation, whose `internet` is spelled out. -/
def smiV1Nodes : List Definition :=
  [oidValue "internet" [.name "iso", .namedArc "org" 3, .namedArc "dod" 6, .arc 1],
    below "directory" "internet" 1, below "mgmt" "internet" 2,
    below "experimental" "internet" 3, below "private" "internet" 4,
    below "enterprises" "private" 1]

/-! ## Types -/

/-- `INTEGER` between two bounds. -/
def intRange (low : Int) (high : Nat) : TypeSyntax :=
  .constrained .integer (.value [⟨.signed low, some (.unsigned high)⟩])

/-- `OCTET STRING` of one of the given sizes. -/
def octets (sizes : List WrittenRange) : TypeSyntax :=
  .constrained .octetString (.size sizes)

/-- One size alone. -/
def exactly (n : Nat) : WrittenRange := ⟨.unsigned n, none⟩

/-- The sizes between two bounds. -/
def between (low high : Nat) : WrittenRange := ⟨.unsigned low, some (.unsigned high)⟩

/-- The numbers of 32 bits without a sign. -/
def word32 : TypeSyntax := intRange 0 0xFFFFFFFF

/-- The numbers of 31 bits. -/
def positive32 : TypeSyntax := intRange 0 0x7FFFFFFF

/-- A type assignment that no text declares. -/
def typeDefinition (entry : String × TypeSyntax) : Definition :=
  ⟨entry.1, .type entry.2 none .current, .synthetic⟩

/-- The types of the second version of the notation. -/
def smiV2Types : List Definition :=
  [("Integer32", intRange (-0x80000000) 0x7FFFFFFF), ("Counter32", word32), ("Gauge32", word32),
    ("Unsigned32", word32), ("TimeTicks", word32), ("Counter64", intRange 0 0xFFFFFFFFFFFFFFFF),
    ("IpAddress", octets [exactly 4]), ("Opaque", .octetString)].map typeDefinition

/-- The types of the first version of the notation. -/
def smiV1Types : List Definition :=
  [("Counter", word32), ("Gauge", word32), ("TimeTicks", word32), ("IpAddress", octets [exactly 4]),
    ("NetworkAddress", octets [exactly 4]), ("Opaque", .octetString)].map typeDefinition

/-- A textual convention that no text declares. -/
def convention (name : String) (body : TypeSyntax) (hint? : Option String) (status : Status) :
    Definition :=
  ⟨name, .textualConvention body hint? status, .synthetic⟩

/-- A current convention without a hint. -/
def plainConvention (name : String) (body : TypeSyntax) : Definition :=
  convention name body none .current

/-- A current convention with a hint. -/
def hintedConvention (name hint : String) (body : TypeSyntax) : Definition :=
  convention name body (some hint) .current

/-- The textual conventions of the second version of the notation. -/
def conventions : List Definition :=
  [hintedConvention "DisplayString" "255a" (octets [between 0 255]),
    hintedConvention "PhysAddress" "1x:" .octetString,
    hintedConvention "MacAddress" "1x:" (octets [exactly 6]),
    plainConvention "TruthValue" (.enumeration [("true", 1), ("false", 2)]),
    plainConvention "TestAndIncr" positive32,
    plainConvention "AutonomousType" .objectIdentifier,
    plainConvention "VariablePointer" .objectIdentifier,
    plainConvention "RowPointer" .objectIdentifier,
    plainConvention "RowStatus" (.enumeration [("active", 1), ("notInService", 2),
      ("notReady", 3), ("createAndGo", 4), ("createAndWait", 5), ("destroy", 6)]),
    plainConvention "TimeStamp" (.named "TimeTicks"),
    plainConvention "TimeInterval" positive32,
    hintedConvention "DateAndTime" "2d-1d-1d,1d:1d:1d.1d,1a1d:1d"
      (octets [exactly 8, exactly 11]),
    plainConvention "StorageType" (.enumeration [("other", 1), ("volatile", 2),
      ("nonVolatile", 3), ("permanent", 4), ("readOnly", 5)]),
    plainConvention "TDomain" .objectIdentifier,
    plainConvention "TAddress" (octets [between 1 255]),
    convention "InstancePointer" .objectIdentifier none .obsolete]

/-- What the module imports. -/
def imports : BaseModule → List Import
  | snmpV2Tc => [⟨"SNMPv2-SMI", "TimeTicks", .synthetic⟩]
  | _ => []

/-- What the module defines; three of them hold macros alone. -/
def definitions : BaseModule → List Definition
  | snmpV2Smi => smiV2Nodes ++ smiV2Types
  | snmpV2Tc => conventions
  | rfc1155Smi => smiV1Nodes ++ smiV1Types
  | snmpV2Conf | rfc1212 | rfc1215 => []

/-- The module as if it had been written. -/
def source (b : BaseModule) : Module :=
  ⟨b.name, b.imports, b.definitions, .synthetic⟩

end BaseModule

/-- Whether `name` is the name of a base module. -/
def isBaseModule (name : String) : Bool := (BaseModule.ofName? name).isSome

end MibCorpus
