import GroupStats.Core.Term
import GroupStats.Decimal.Text

/-!
# Errors

Every failure of the library is an `Error`: a cause with the values that explain it. The
wording lives in one place, `Error.message`, and `Error.kind` names the class of a failure.
-/

namespace GroupStats

/-- Objects that refuse work once they are closed. -/
inductive Resource where
  | writer
  | termMerge
  | merger
  | shardSession
  | multiSession
  deriving DecidableEq, Repr

/-- What a closed object reports. -/
def Resource.text : Resource → String
  | .writer => "FTGS writer"
  | .termMerge => "merge iterator closed"
  | .merger => "FTGS merger"
  | .shardSession => "shard session"
  | .multiSession => "multi-session"

/-- Failures of a byte transport. -/
inductive IoFault where
  /-- The transport was opened for reading only. -/
  | badDescriptor
  /-- The transport is a directory. -/
  | isDirectory
  /-- The named file does not exist. -/
  | notFound
  /-- A path goes on past a file as if it were a directory. -/
  | notDirectory
  /-- A path, or a name in it, is longer than a file system takes. -/
  | nameTooLong
  /-- A bounded spill target refused a write past its limit. -/
  | writeLimit (limit : UInt64)
  /-- Any other failure, with its text. -/
  | other (text : String)
  deriving DecidableEq, Repr

/-- The text of a transport failure. -/
def IoFault.message : IoFault → String
  | .badDescriptor => "Bad file descriptor (os error 9)"
  | .isDirectory => "Is a directory (os error 21)"
  | .notFound => "No such file or directory (os error 2)"
  | .notDirectory => "Not a directory (os error 20)"
  | .nameTooLong => "File name too long (os error 36)"
  | .writeLimit limit => "spill write limit of " ++ toString limit ++ " bytes exceeded"
  | .other text => text

/-- Ways the bytes of a stream fail to be a stream. -/
inductive StreamFault where
  | unknownFlag (flag : UInt8)
  | tooLong (length : Nat)
  | badName (failure : Utf8.Failure)
  | misplacedTerm (expected : FieldType) (field : Field)
  | groupRange (group : GroupId) (numGroups : UInt32)
  | unknownTag (tag : UInt8)
  | truncated
  /-- An input of a merge sent a group at or past the merge's group bound. -/
  | strayGroup (input : Nat) (group : GroupId) (numGroups : UInt32)
  /-- The inputs of a merge stand on different fields. -/
  | fieldMismatch (input : Nat) (field others : Field)
  /-- Some inputs of a merge ended while others had another field. -/
  | endedEarly (ended total : Nat)
  deriving DecidableEq, Repr

/-- Two lowercase hexadecimal digits of a byte. -/
def hexByte (b : UInt8) : String := Bytes.toHex [b]

/-- The text of a stream fault. -/
def StreamFault.message : StreamFault → String
  | .unknownFlag flag => "unknown field type flag " ++ toString flag
  | .tooLong length => "length " ++ toString length ++ " exceeds limit"
  | .badName failure => "field name is not UTF-8: " ++ failure.message
  | .misplacedTerm expected field =>
    expected.name ++ " term inside " ++ field.display ++ " field"
  | .groupRange group numGroups =>
    "group " ++ toString group ++ " outside [0, " ++ toString numGroups ++ ")"
  | .unknownTag tag => "unknown record tag 0x" ++ hexByte tag
  | .truncated => "stream truncated inside a record"
  | .strayGroup input group numGroups =>
    "input " ++ toString input ++ " emitted group " ++ toString group ++ " outside [0, " ++
      toString numGroups ++ ")"
  | .fieldMismatch input field others =>
    "input " ++ toString input ++ " is on field " ++ field.display ++ " while others are on " ++
      others.display
  | .endedEarly ended total =>
    toString ended ++ " of " ++ toString total ++ " inputs ended early"

/-- Arguments an operation cannot work with. -/
inductive ArgumentFault where
  | statCount (group : GroupId) (given expected : Nat)
  | noSplitOutputs
  | noTermSources
  | noMergeInputs
  | statCountsDiffer (first other : Nat)
  | emptyStatStack
  | statIndex (index depth : Nat)
  | groupTooLarge (group : GroupId)
  | collision (doc : DocId) (first second : Nat)
  | probability (p : Float)
  | thresholdCount (thresholds groups : Nat)
  | thresholdOrder
  | interval (interval : Int64)
  | bucketRange (min max : Int64)
  | tooManyGroups (needed : Int)
  | filterRange (min max : Int64)
  | remapLengths (sources destinations : Nat)
  | conditionType (field : Field) (term : FieldType)
  | ruleLengths (conditions positives : Nat)
  | unknownMetric (name : String)
  | noShards
  | splitIndex (index count : Nat)
  | roundMismatch (index count : Nat)
  | registeredTwice (index : Nat)
  deriving Repr

/-- The text of an argument fault. -/
def ArgumentFault.message : ArgumentFault → String
  | .statCount group given expected =>
    "group " ++ toString group ++ " carries " ++ toString given ++ " stats, stream expects " ++
      toString expected
  | .noSplitOutputs => "split requires at least one output"
  | .noTermSources => "merge requires at least one term source"
  | .noMergeInputs => "FTGS merge requires at least one input"
  | .statCountsDiffer first other =>
    "inputs disagree on stat count: " ++ toString first ++ " vs " ++ toString other
  | .emptyStatStack => "stat stack is empty"
  | .statIndex index depth =>
    "stat index " ++ toString index ++ " out of range (depth " ++ toString depth ++ ")"
  | .groupTooLarge group =>
    "group " ++ toString group ++ " exceeds the maximum group id " ++ toString (maxNumGroups - 1)
  | .collision doc first second =>
    "document " ++ toString doc ++ " matches conditions " ++ toString first ++ " and " ++
      toString second
  | .probability p => "probability " ++ Decimal.Style.plain.render p ++ " outside [0, 1]"
  | .thresholdCount thresholds groups =>
    toString thresholds ++ " thresholds need " ++ toString (thresholds + 1) ++
      " result groups, got " ++ toString groups
  | .thresholdOrder => "thresholds must ascend within [0, 1]"
  | .interval i => "interval must be positive, got " ++ toString i.toInt
  | .bucketRange min max =>
    "max " ++ toString max.toInt ++ " must exceed min " ++ toString min.toInt
  | .tooManyGroups needed => "metric regroup would create " ++ toString needed ++ " groups"
  | .filterRange min max => "max " ++ toString max.toInt ++ " below min " ++ toString min.toInt
  | .remapLengths sources destinations =>
    toString sources ++ " source groups but " ++ toString destinations ++ " destinations"
  | .conditionType field term =>
    "condition on " ++ field.display ++ " compares against a " ++ term.name ++ " term"
  | .ruleLengths conditions positives =>
    toString conditions ++ " conditions but " ++ toString positives ++ " positive groups"
  | .unknownMetric name => "Unknown metric: " ++ name
  | .noShards => "multi-session requires at least one shard"
  | .splitIndex index count =>
    "split index " ++ toString index ++ " outside [0, " ++ toString count ++ ")"
  | .roundMismatch index count =>
    "split " ++ toString index ++ " of " ++ toString count ++ " does not match the round in progress"
  | .registeredTwice index => "split " ++ toString index ++ " registered twice in one round"

/-- Settings that cannot be used, and failures to load or store them. -/
inductive ConfigFault where
  | largePrime
  | numSplits
  | ceiling
  | claimAboveCeiling
  | workers
  | batchSize
  | initialGroup
  | logLevel (level : String)
  | kernelInstalled (name : String)
  | readFailed (path : String) (cause : IoFault)
  | writeFailed (path : String) (cause : IoFault)
  /-- A settings text that does not parse. Its wording belongs to the parser, not to this
  library, so only the file is kept. -/
  | parseFailed (path : Option String)
  /-- A setting too large for the settings format, with the name of its type. -/
  | notRepresentable (type : String)
  deriving DecidableEq, Repr

/-- The text of a settings fault. -/
def ConfigFault.message : ConfigFault → String
  | .largePrime => "Large prime must be > 1"
  | .numSplits => "Number of splits must be > 0"
  | .ceiling => "Memory ceiling must be > 0"
  | .claimAboveCeiling => "Multi-session claim cannot exceed the memory ceiling"
  | .workers => "Worker threads must be > 0"
  | .batchSize => "Doc batch size must be > 0"
  | .initialGroup => "Initial group cannot be the excluded group 0"
  | .logLevel level => "Unknown log level \x27" ++ level ++ "\x27"
  | .kernelInstalled name => "aggregation kernel \x27" ++ name ++ "\x27 is already installed"
  | .readFailed path cause => "Failed to read config file " ++ path ++ ": " ++ cause.message
  | .writeFailed path cause => "Failed to write config file " ++ path ++ ": " ++ cause.message
  | .parseFailed (some path) => "Failed to parse config file " ++ path
  | .parseFailed none => "Failed to parse config"
  | .notRepresentable type => "Failed to serialize config: out-of-range value for " ++ type ++ " type"

/-- A failure of the library. -/
inductive Error where
  | outOfMemory (requested available : UInt64)
  | capacityExceeded (limit : UInt64)
  | sizeMismatch (expected actual : Nat)
  | closed (resource : Resource)
  | io (fault : IoFault)
  | invalidArgument (fault : ArgumentFault)
  | corrupt (fault : StreamFault)
  /-- A shared round failed on another party; the cause is that party's error. -/
  | aggregation (cause : Error)
  | memoryLeak (bytes : UInt64)
  | configuration (fault : ConfigFault)
  /-- A read past the end of a vector, which stops the program: the index read and the
  vector's length. -/
  | outOfBounds (index length : Nat)
  deriving Repr

namespace Error

/-- The text of an error. -/
def message : Error → String
  | .outOfMemory requested available =>
    "Out of memory: requested " ++ toString requested ++ " bytes, " ++ toString available ++
      " bytes available"
  | .capacityExceeded limit => "Capacity exceeded: limit is " ++ toString limit ++ " bytes"
  | .sizeMismatch expected actual =>
    "Size mismatch: expected " ++ toString expected ++ ", got " ++ toString actual
  | .closed resource => "Closed: " ++ resource.text
  | .io fault => "IO error: " ++ fault.message
  | .invalidArgument fault => "Invalid argument: " ++ fault.message
  | .corrupt fault => "Corrupt FTGS stream: " ++ fault.message
  | .aggregation cause => "Aggregation failed: " ++ cause.message
  | .memoryLeak bytes => "Memory leak detected: " ++ toString bytes ++ " bytes still claimed"
  | .configuration fault => "Configuration error: " ++ fault.message
  | .outOfBounds index length =>
    "index out of bounds: the len is " ++ toString length ++ " but the index is " ++ toString index

/-- The class of an error. -/
def kind : Error → String
  | .outOfMemory .. => "OutOfMemory"
  | .capacityExceeded .. => "CapacityExceeded"
  | .sizeMismatch .. => "SizeMismatch"
  | .closed .. => "Closed"
  | .io .. => "Io"
  | .invalidArgument .. => "InvalidArgument"
  | .corrupt .. => "Corrupt"
  | .aggregation .. => "Aggregation"
  | .memoryLeak .. => "MemoryLeak"
  | .configuration .. => "Configuration"
  | .outOfBounds .. => "panic"

/-- Whether the error is a failed memory claim. -/
def isOutOfMemory : Error → Bool
  | .outOfMemory .. => true
  | _ => false

/-- Whether the error is an exhausted spill limit. -/
def isCapacityExceeded : Error → Bool
  | .capacityExceeded .. => true
  | _ => false

/-- A spill target that refused a write past its limit becomes the capacity failure of that
limit; every other error is kept. -/
def classify : Error → Error
  | .io (.writeLimit limit) => .capacityExceeded limit
  | e => e

end Error

end GroupStats
