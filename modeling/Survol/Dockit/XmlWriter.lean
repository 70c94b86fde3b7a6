import Survol.Dockit.ProcessForest
import Survol.Lib.Xml

/-!
# The XML summary

The summary of a session is written by `GenerateSummaryXML`: one element for each process, within
its parent, and one for each file, within its category. Attributes are written as they are printed.
The traversal of the processes does not depend on what it writes, which is a parameter here.

## Main definitions

* `pathCategory` — the category of a file.
* `processFields`, `dataFileFields`, `writtenAttrs` — the attributes of an object.
* `tagXML`, `vectorToXML`, `plainToXML` — the writers.
* `SummaryWriter`, `xmlOneLevel`, `xmlProcesses`, `xmlSummaries` — the traversal.
* `generateSummaryXML` — the text.
-/

open PyText Xml

namespace Survol.Dockit

/-! ## Categories -/

/-- What follows `prefix[^/]*/` in a path. -/
def afterDirectory (start pathName : Text) : Option Text :=
  if start.isPrefixOf pathName then
    match (pathName.drop start.length).dropWhile (· ≠ '/') with
    | _ :: rest => some rest
    | [] => none
  else none

/-- A match of `.*` and `needle`. -/
def onLine (needle s : Text) : Bool := contains (s.takeWhile (· ≠ '\n')) needle

/-- A match of `start[^/]*/.*needle`. -/
def inLibrary (start needle pathName : Text) : Bool :=
  (afterDirectory start pathName).any (onLine needle)

/-- A match of `start.*needle`. -/
def inDirectory (start needle pathName : Text) : Bool :=
  start.isPrefixOf pathName && onLine needle (pathName.drop start.length)

/-- A match of `start.*->.*]`. -/
def isConnected (start pathName : Text) : Bool :=
  start.isPrefixOf pathName &&
    let line := (pathName.drop start.length).takeWhile (· ≠ '\n')
    (findIdx "->".toList line).any fun k => contains (line.drop (k + 2)) [']']

/-- `G_lstFilters`. -/
def lstFilters : List (Text × List (Text → Bool)) :=
  let startsWith (start : String) : Text → Bool := start.toList.isPrefixOf
  [("Shared libraries".toList,
      [inLibrary "/usr/lib".toList ".so".toList, inLibrary "/usr/lib".toList ".so.".toList,
        inLibrary "/var/lib".toList ".so".toList, inDirectory "/lib/".toList ".so".toList,
        inDirectory "/lib64/".toList ".so".toList]),
    ("System config files".toList,
      [startsWith "/etc/", startsWith "/usr/share/fonts/", startsWith "/usr/share/fontconfig/",
        startsWith "/usr/share/fontconfig/", startsWith "/usr/share/locale/",
        startsWith "/usr/share/zoneinfo/"]),
    ("Other libraries".toList,
      [startsWith "/usr/share/", fun s => (afterDirectory "/usr/lib".toList s).isSome,
        fun s => (afterDirectory "/var/lib".toList s).isSome]),
    ("System executables".toList,
      [startsWith "/bin/", fun s => (afterDirectory "/usr/bin".toList s).isSome]),
    ("Kernel file systems".toList, [startsWith "/proc", startsWith "/run"]),
    ("Temporary files".toList,
      [startsWith "/tmp/", startsWith "/var/log/", startsWith "/var/cache/"]),
    ("Pipes and terminals".toList,
      [startsWith "/sys", startsWith "/dev", startsWith "pipe:", startsWith "socket:",
        startsWith "UNIX:", startsWith "NETLINK:"]),
    ("Connected TCP sockets".toList,
      [isConnected "TCP:[".toList, isConnected "TCPv6:[".toList]),
    ("Other TCP/IP sockets".toList,
      [startsWith "TCP:", startsWith "TCPv6:", startsWith "UDP:", startsWith "UDPv6:"]),
    ("Others".toList, [])]

/-- `PathCategory`. -/
def pathCategory (pathName : Text) : Text :=
  ((lstFilters.find? fun rgxTuple => rgxTuple.2.any fun oneRgx => oneRgx pathName).map
    Prod.fst).getD "Others".toList

/-! ## Attributes -/

/-- The value of an attribute: how it is printed, and whether it counts as true. -/
structure AttrValue where
  str : Text
  truthy : Bool

/-- A text. -/
def AttrValue.text (s : Text) : AttrValue := ⟨s, s ≠ []⟩

/-- A number. -/
def AttrValue.int (i : ℤ) : AttrValue := ⟨decimal i, i ≠ 0⟩

/-- A text, or `None`. -/
def AttrValue.ofOption : Option Text → AttrValue
  | some s => .text s
  | none => ⟨"None".toList, false⟩

/-- What a process knows besides its record. -/
structure ProcessDetails where
  name : Option Text
  username : Option Text
  priority : Option ℤ
  environmentVariables : Option AttrValue

/-- The results of `os.stat`, with printed times. -/
structure FileStat where
  fileSize : ℤ
  fileMode : ℤ
  inode : ℤ
  deviceId : ℤ
  hardLinksNumber : ℤ
  ownerUserId : ℤ
  ownerGroupId : ℤ
  accessTime : Text
  modifyTime : Text
  creationTime : Text
  deviceType : Option ℤ

/-- An object of another class, with the attributes that `dir` lists. -/
structure Instance where
  attrs : List (Text × AttrValue)
  valid : ∀ a ∈ attrs, ValidName a.1
  nodup : (attrs.map Prod.fst).Nodup

/-- The classes whose objects are written as a list of attributes. -/
inductive SystemClass
  | computerSystem
  | operatingSystem
  | networkAdapter
  deriving DecidableEq

/-- The name of a class. -/
def SystemClass.name : SystemClass → Text
  | computerSystem => "CIM_ComputerSystem".toList
  | operatingSystem => "CIM_OperatingSystem".toList
  | networkAdapter => "CIM_NetworkAdapter".toList

/-- The key of the only scanner. -/
def sqlQuery : Text := "SqlQuery".toList

/-- What the summary reads and the tables do not hold. -/
structure Surroundings where
  today : Text
  str : Arg → Text
  process : ℤ → ProcessDetails
  fileStat : Text → Option FileStat
  hostByAddr : Text → Option Text
  instances : SystemClass → List Instance

/-- What the summary reads. The parent of a process is always a known process, and there is one
scanner. -/
structure Session extends Surroundings where
  objects : Objects
  mem_keys_of_parent : ∀ p q, objects.parentOf p = some q → q ∈ objects.processes.keys
  scannerKeys : ∀ a ∈ objects.fileAccesses, ∀ b ∈ [a.bufConcatRead, a.bufConcatWrite],
    ∀ c ∈ b, ∀ d ∈ c.parsedData, ∀ k ∈ d, k.1 = sqlQuery

/-- `IsTimeStamp`. -/
def isTimeStamp (attr : Text) : Bool :=
  (findIdx "Date".toList attr).any (0 < ·) || (findIdx "Time".toList attr).any (0 < ·)

/-- `IsCIM`, on the name of an attribute that is not callable. -/
def isCIM (attr : Text) : Bool := !"__".toList.isPrefixOf attr && !"m_".toList.isPrefixOf attr

/-- `TimeStampToStr`. -/
def timeStampToStr (today : Text) (timStamp : AttrValue) : Text :=
  if timStamp.truthy then today ++ ' ' :: timStamp.str else today ++ " 00:00:00.000000".toList

/-- The text of an attribute, if it is written. -/
def writtenValue (today : Text) (a : Text × AttrValue) : Option (Text × Text) :=
  if isCIM a.1 then
    let attrVal := if isTimeStamp a.1 then .text (timeStampToStr today a.2) else a.2
    if attrVal.truthy then some (a.1, attrVal.str) else none
  else none

/-- The attributes of an object, in the order in which `PlainToXML` writes them. -/
def writtenAttrs (today : Text) (attrsPriorities : List Text) (attrs : List (Text × AttrValue)) :
    List (Text × Text) :=
  (attrsPriorities.filterMap (fun n => attrs.find? fun a => a.1 = n) ++
    attrs.filter fun a => a.1 ∉ attrsPriorities).filterMap (writtenValue today)

/-- The fields that an object has. -/
def present (fields : List (Text × Option AttrValue)) : List (Text × AttrValue) :=
  fields.filterMap fun a => a.2.map (a.1, ·)

/-- `m_AttrsPriorities` of `CIM_Process`. -/
def processPriorities : List Text :=
  ["Handle".toList, "Name".toList, "CommandLine".toList, "CreationDate".toList,
    "TerminationDate".toList, "Priority".toList]

/-- `m_AttrsPriorities` of `CIM_DataFile`. -/
def dataFilePriorities : List Text :=
  ["Name".toList, "Category".toList, "SocketAddress".toList]

/-- The texts of a list, with a space between them. -/
def joinSpaces : List Text → Text
  | [] => []
  | [s] => s
  | s :: l => s ++ ' ' :: joinSpaces l

/-- The command line of a process: `SetCommandLine`. -/
def commandLine (str : Arg → Text) : Arg → Text
  | .str s => joinSpaces (s.map fun c => [c])
  | .list l => joinSpaces (l.map str)

namespace Session

variable (S : Session)

/-- The attributes of a process. -/
def processFields (pid : ℤ) : List (Text × Option AttrValue) :=
  let o := S.objects.processes.get? pid
  let details := S.process pid
  [("CommandLine".toList, (o.bind (·.commandList)).map fun l => .text (commandLine S.str l)),
    ("CreationDate".toList, o.map fun o => .ofOption o.creationDate),
    ("CurrentDirectory".toList, o.map fun o => .text o.currentDirectory),
    ("EnvironmentVariables".toList, details.environmentVariables),
    ("Executable".toList, (o.bind (·.executable)).map .text),
    ("Handle".toList, some (.int pid)),
    ("IsThread".toList, if o.any (·.isThread) then some ⟨"True".toList, true⟩ else none),
    ("Name".toList, some (.ofOption details.name)),
    ("Priority".toList, details.priority.map .int),
    ("TerminationDate".toList, o.map fun o => .ofOption o.terminationDate),
    ("Username".toList, details.username.map .text)]

end Session

/-- The text after the last arrow. -/
def afterLastArrow : Text → Option Text
  | [] => none
  | c :: s =>
    match afterLastArrow s with
    | some t => some t
    | none => if "->".toList.isPrefixOf (c :: s) then some (s.drop 1) else none

/-- The group of a match of `start.*->(.*)]`. -/
def remoteEnd (start pathName : Text) : Option Text :=
  if start.isPrefixOf pathName then
    let line := (pathName.drop start.length).takeWhile (· ≠ '\n')
    (rfindChar ']' line).bind fun j => afterLastArrow (line.take j)
  else none

/-- The remote address of a connected socket. -/
def pathIP (pathName : Text) : Option Text :=
  match remoteEnd "TCP:[".toList pathName with
  | some s => some s
  | none => remoteEnd "TCPv6:[".toList pathName

/-- `Destination`, as `SetAddrPort` computes it. -/
def destination (hostByAddr : Text → Option Text) (s : Text) : Text :=
  match rfindChar ':' s with
  | some ixEq => (hostByAddr (s.take ixEq)).getD (s.take ixEq)
  | none => s

/-- `Port`, as `SetAddrPort` computes it. -/
def port (s : Text) : Option Text := (rfindChar ':' s).map fun ixEq => s.drop (ixEq + 1)

/-- The base name of a path, up to its first dot. -/
def fileName (pathName : Text) : Text :=
  (((splitOn '/' pathName).getLast?).getD []).takeWhile (· ≠ '.')

namespace Session

variable (S : Session)

/-- The attributes of a file. -/
def dataFileFields (o : CIMDataFile) : List (Text × Option AttrValue) :=
  let stat := S.fileStat o.name
  [("AccessTime".toList, stat.map fun s => .text s.accessTime),
    ("Category".toList, some (.text (pathCategory o.name))),
    ("CreationTime".toList, stat.map fun s => .text s.creationTime),
    ("Destination".toList, (pathIP o.name).map fun s => .text (destination S.hostByAddr s)),
    ("DeviceId".toList, stat.map fun s => .int s.deviceId),
    ("DeviceType".toList, (stat.bind (·.deviceType)).map .int),
    ("FileMode".toList, stat.map fun s => .int s.fileMode),
    ("FileName".toList, some (.text (fileName o.name))),
    ("FileSize".toList, stat.map fun s => .int s.fileSize),
    ("HardLinksNumber".toList, stat.map fun s => .int s.hardLinksNumber),
    ("Inode".toList, stat.map fun s => .int s.inode),
    ("IsExecuted".toList, if o.isExecuted then some ⟨"True".toList, true⟩ else none),
    ("ModifyTime".toList, stat.map fun s => .text s.modifyTime),
    ("Name".toList, some (.text o.name)),
    ("OwnerGroupId".toList, stat.map fun s => .int s.ownerGroupId),
    ("OwnerUserId".toList, stat.map fun s => .int s.ownerUserId),
    ("Port".toList, ((pathIP o.name).bind port).map .text),
    ("SocketAddress".toList, o.socketAddress.map fun a => ⟨S.str a, !a.isEmpty⟩)]

/-- The attributes that are written for a process. -/
def processAttrs (pid : ℤ) : List (Text × Text) :=
  writtenAttrs S.today processPriorities (present (S.processFields pid))

/-- The attributes that are written for a file. -/
def dataFileAttrs (o : CIMDataFile) : List (Text × Text) :=
  writtenAttrs S.today dataFilePriorities (present (S.dataFileFields o))

end Session

/-! ## The writers of one object -/

/-- The margin of one level. -/
def margin4 : Text := "    ".toList

/-- `PlainToXML`, on the attributes that it writes. -/
def plainToXML (subMargin : Text) (attrs : List (Text × Text)) : Text :=
  attrs.flatMap fun a =>
    subMargin ++ '<' :: a.1 ++ '>' :: a.2 ++ "</".toList ++ a.1 ++ ">\n".toList

/-- A time of an access, if it is set. -/
def stampField (today : Text) (t : Option Text) : Option Text :=
  if isSet t then some (timeStampToStr today (.ofOption t)) else none

/-- A counter of an access, if it is not zero. -/
def counterField (n : Option ℤ) : Option Text := (n.filter (· ≠ 0)).map decimal

/-- The attributes of the tag of an access. -/
def accessFields (today : Text) (displayedFromProcess : Bool) (a : FileAccess) :
    List (Text × Option Text) :=
  [if displayedFromProcess then ("Process".toList, some (decimal a.process))
    else ("File".toList, some a.dataFile),
    ("OpenTime".toList, stampField today a.openTime),
    ("OpenSize".toList, counterField (a.openSize.map Int.ofNat)),
    ("CloseTime".toList, stampField today a.closeTime),
    ("CloseSize".toList, counterField (a.closeSize.map Int.ofNat)),
    ("NumReads".toList, counterField (a.numReads.map Int.ofNat)),
    ("BytesRead".toList, counterField a.bytesRead),
    ("NumWrites".toList, counterField (a.numWrites.map Int.ofNat)),
    ("BytesWritten".toList, counterField a.bytesWritten)]

/-- An attribute of a tag, if it is written. -/
def attributeText (a : Text × Option Text) : Text :=
  match a.2 with
  | some value => ' ' :: a.1 ++ "='".toList ++ value ++ "'".toList
  | none => []

/-- `HasParsedData`. -/
def hasParsedData (b : Option BufferConcatenator) : Bool := (b.bind (·.parsedData)).isSome

/-- What the scanners have found. -/
def parsedData (b : Option BufferConcatenator) : Dict Text (List Text) :=
  (b.bind (·.parsedData)).getD []

/-- `ParsedDataToXML`. -/
def parsedDataToXML (margin direction : Text) (b : Option BufferConcatenator) : Text :=
  (parsedData b).flatMap fun k =>
    margin ++ '<' :: (k.1 ++ "_List".toList) ++ " direction='".toList ++ direction ++
      "'>\n".toList ++ plainToXML (margin ++ margin4) (k.2.map fun v => (k.1, v)) ++
      margin ++ "</".toList ++ (k.1 ++ "_List".toList) ++ ">\n".toList

/-- `TagXML`. -/
def tagXML (today margin : Text) (displayedFromProcess : Bool) (a : FileAccess) : Text :=
  margin ++ "<Access".toList ++ (accessFields today displayedFromProcess a).flatMap attributeText ++
    if hasParsedData a.bufConcatRead || hasParsedData a.bufConcatWrite then
      " >\n".toList ++ parsedDataToXML (margin ++ margin4) "Read".toList a.bufConcatRead ++
        parsedDataToXML (margin ++ margin4) "Write".toList a.bufConcatWrite ++
        margin ++ "</Access>\n".toList
    else " />\n".toList

/-- `VectorToXML`. -/
def vectorToXML (today margin : Text) (displayedFromProcess : Bool) (l : List FileAccess) : Text :=
  if l = [] then [] else
    margin ++ "<FileAccesses>\n".toList ++
      l.flatMap (tagXML today (margin ++ margin4) displayedFromProcess) ++
      margin ++ "</FileAccesses>\n".toList

/-! ## The traversal -/

/-- The texts of a list of nodes, in order. -/
def concat {α β : Type} (f : α → Option (List β)) : List α → Option (List β)
  | [] => some []
  | x :: l => (f x).bind fun a => (concat f l).map (a ++ ·)

/-- A category filter, as the parsed path of a class gives it. -/
inductive CategoryFilter
  | text (s : Text)
  | list (l : List Text)

/-- The test `not filterCats or category in filterCats`. -/
def CategoryFilter.selects (category : Text) : Option CategoryFilter → Bool
  | none => true
  | some (.text s) => s = [] || contains s category
  | some (.list l) => l = [] || category ∈ l

/-- The classes of the summary. -/
inductive SummaryClass
  | system (c : SystemClass)
  | process
  | dataFile
  deriving DecidableEq

/-- A parsed path of a class. -/
structure SummaryFilter where
  cls : SummaryClass
  category : Option CategoryFilter

/-- What is written before and after the subprocesses of a process, for the objects of a class,
and for the files. -/
structure SummaryWriter (β : Type) where
  processStart : Text → ℤ → List β
  processEnd : Text → ℤ → List β
  instances : SystemClass → List β
  dataFiles : Option CategoryFilter → List β

section
variable {β : Type} (W : SummaryWriter β) (w : Objects)

/-- `XMLOneLevelSummary`, in a depth of at most `n`. -/
def xmlOneLevel : ℕ → Text → ℤ → Option (List β)
  | 0, _, _ => none
  | n + 1, margin, pid =>
    (concat (xmlOneLevel n (margin ++ margin4)) (w.subsOf pid)).map fun subs =>
      W.processStart margin pid ++ subs ++ W.processEnd margin pid

/-- The loop of `XMLSummary` over the processes, with those that are visited. -/
def xmlProcesses (n : ℕ) : List ℤ → List ℤ → Option (List ℤ × List β)
  | visited, [] => some (visited, [])
  | visited, p :: ps =>
    if p ∈ visited then xmlProcesses n visited ps else do
      let top ← w.topProcessFromProc n p
      let text ← xmlOneLevel W w n margin4 top
      let seen ← w.xmlOneLevelSummary n top
      let (visited, rest) ← xmlProcesses n (visited ++ seen) ps
      return (visited, text ++ rest)

/-- The loop of `GenerateSummaryXML`. Without a process, the table of processes is missing. -/
def xmlSummaries (n : ℕ) : List ℤ → List SummaryFilter → Option (List β)
  | _, [] => some []
  | visited, f :: fs =>
    match f.cls with
    | .system c => (xmlSummaries n visited fs).map (W.instances c ++ ·)
    | .dataFile => (xmlSummaries n visited fs).map (W.dataFiles f.category ++ ·)
    | .process =>
      if w.processes = [] then none else do
        let (visited, text) ← xmlProcesses W w n visited w.sortedProcesses
        let rest ← xmlSummaries n visited fs
        return text ++ rest

end

namespace Session

variable (S : Session)

/-- The accesses of a list of references. -/
def accesses (refs : List ℕ) : List FileAccess :=
  refs.filterMap fun i => S.objects.fileAccesses[i]?

/-- The accesses of a process. -/
def processAccesses (pid : ℤ) : List FileAccess :=
  S.accesses (((S.objects.processes.get? pid).map (·.processFileAccesses)).getD [])

/-- `XMLDisplay`. -/
def xmlDisplay (o : CIMDataFile) : Text :=
  let margin := margin4 ++ margin4
  margin ++ "<CIM_DataFile Name='".toList ++ o.name ++ "'>\n".toList ++
    plainToXML (margin ++ margin4) (S.dataFileAttrs o) ++
    vectorToXML S.today (margin ++ margin4) true (S.accesses o.dataFileFileAccesses) ++
    margin ++ "</CIM_DataFile>\n".toList

/-- The key of a file among the objects. -/
def filePath (name : Text) : Text := "CIM_DataFile.Name=\"".toList ++ name ++ ['"']

/-- The files of a category, sorted by their keys. -/
def filesOf (category : Text) : List CIMDataFile :=
  ((S.objects.dataFiles.map Prod.snd).filter fun o => pathCategory o.name = category).mergeSort
    fun a b => decide (filePath a.name ≤ filePath b.name)

/-- The categories, sorted. -/
def sortedCategories : List Text :=
  (lstFilters.map Prod.fst).mergeSort fun a b => decide (a ≤ b)

/-- The files of a category: a category that is not selected is left open. -/
def xmlCategory (filterCats : Option CategoryFilter) (category : Text) : Text :=
  if S.filesOf category = [] then [] else
    "    <FilesCategory category='".toList ++ category ++ "'>\n".toList ++
      if CategoryFilter.selects category filterCats then
        (S.filesOf category).flatMap S.xmlDisplay ++ "    </FilesCategory>\n".toList
      else []

/-- `XMLSummary` of a class that has no other writer. -/
def xmlInstances (c : SystemClass) : Text :=
  (S.instances c).flatMap fun o =>
    margin4 ++ '<' :: c.name ++ ">\n".toList ++
      plainToXML (margin4 ++ margin4) (writtenAttrs S.today [] o.attrs) ++
      margin4 ++ "</".toList ++ c.name ++ ">\n".toList

/-- The writers of the summary. -/
def textWriter : SummaryWriter Char where
  processStart margin pid :=
    margin ++ "<CIM_Process Handle='".toList ++ decimal pid ++ "'>\n".toList ++
      plainToXML (margin ++ margin4) (S.processAttrs pid) ++
      vectorToXML S.today (margin ++ margin4) false (S.processAccesses pid)
  processEnd margin _ := margin ++ "</CIM_Process>\n".toList
  instances := S.xmlInstances
  dataFiles filterCats := sortedCategories.flatMap (S.xmlCategory filterCats)

/-- `GenerateSummaryXML`, in a depth of at most `n`. -/
def generateSummaryXML (n : ℕ) (filters : List SummaryFilter) : Option Text :=
  (xmlSummaries S.textWriter S.objects n [] filters).map fun body =>
    "<?xml version=\"1.0\" encoding=\"UTF-8\"?>\n".toList ++ "<Dockit>\n".toList ++ body ++
      "</Dockit>\n".toList

end Session

end Survol.Dockit
