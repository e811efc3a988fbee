/-
Module: Bprd.Model.Config
Layer: Model
Purpose: How src/bprd.c takes its configuration: the hello interval and the timeout derived from it, the
  commodities of the command line and of the configuration file, and the check of their address family.
  The file is read with `fgets` into a buffer of 256 characters.
Imports: Bprd.Model.Ntable, Bprd.Model.NetaddrText, Bprd.Model.Fault, Bprd.Lib.LineReader
Trusted boundary: human-reviewed spec
Main exports: helloIntervalOption, neighborTimeoutOf, scanCommodity, commodityOf, createCommodity,
  initCommodities, fgets, confileLoop, confileRead
-/
import Bprd.Model.Ntable
import Bprd.Model.NetaddrText
import Bprd.Model.Fault
import Bprd.Lib.LineReader

namespace Bprd

open CText (strtoul)

/-- `USEC_PER_MSEC`. -/
def usecPerMsec : UInt32 := 1000

/-- `BPRD_DEFAULT_NEIGHBOR_TIMEOUT`, in missed hello messages. -/
def bprdDefaultNeighborTimeout : UInt32 := 5

/-- The option `-s`: `((uint32_t)atoi(optarg))*USEC_PER_MSEC`, for the value of `atoi`. -/
def helloIntervalOption (msec : Int) : UInt32 := UInt32.ofInt msec * usecPerMsec

/-- `bprd_init` derives the neighbour timeout from the hello interval. -/
def neighborTimeoutOf (helloInterval : UInt32) : UInt32 := helloInterval * bprdDefaultNeighborTimeout

/-! ### Commodities -/

/-- `sscanf(buf, "%[^,],%u\n", addrstr, &nfq_id) != 2` is an error. `addrstr` holds 256 characters with
    the terminating NUL, and the conversion into it has no width. A number is converted as by `strtoul`
    and stored in 32 bits; what follows it is not looked at. -/
def scanCommodity (buf : List Char) : Except Fault (List Char × UInt32) :=
  let addrstr := buf.takeWhile fun c => c != ','
  let number := (buf.dropWhile fun c => c != ',').tail
  if 256 ≤ addrstr.length then .error .outOfBounds
  else if addrstr = [] then .error (.logErr "Error parsing commodity string")
  else
    match strtoul number with
    | none => .error (.logErr "Error parsing commodity string")
    | some (nfqId, _) => .ok (addrstr, nfqId.toUInt32)

/-- The record that `create_commodity` fills before it looks at the list. -/
def commodityOf (buf : List Char) : Except Fault Commodity := do
  let (addrstr, nfqId) ← scanCommodity buf
  match netaddrFromString addrstr with
  | none => .error (.logErr "Unable to convert string to address")
  | some addr =>
      .ok { cdata := { addr := addr, backlog := 0 }, backdiff := 0, nfqId := nfqId.toUInt16, queue := none }

/-- `create_commodity`. -/
def createCommodity (clist : List Commodity) (buf : List Char) : Except Fault (List Commodity) := do
  let c ← commodityOf buf
  match clistFind clist c with
  | some _ => .error (.logErr "Duplicate commodity detected")
  | none => .ok (listInsert clist c)

/-- The check of `bprd_init` on the commodities. -/
def checkFamilies (ipver : UInt8) : List Commodity → Except Fault Unit
  | [] => .ok ()
  | c :: rest =>
      if c.cdata.addr.type ≠ ipver then
        .error (.logErr
          "Commodity destination IP address version does not match program's IP version")
      else checkFamilies ipver rest

/-- The check of `bprd_init` on the IP version. -/
def checkIpver (ipver : UInt8) : Except Fault Unit :=
  if ipver ≠ afInet ∧ ipver ≠ afInet6 then .error (.logErr "Unknown IP version") else .ok ()

/-- The commodity strings of one start of the daemon, in the order in which they are met, and the checks
    of `bprd_init` behind them. -/
def initCommodities (ipver : UInt8) (strings : List (List Char)) : Except Fault (List Commodity) := do
  let clist ← strings.foldlM createCommodity []
  checkIpver ipver
  checkFamilies ipver clist
  return clist

/-! ### The configuration file -/

/-- `fgets(buf, size, stream)`. -/
def fgets (size : Nat) (stream : List Char) : Option (List Char × List Char) :=
  if stream = [] then none else some (LineReader.readChunk '\n' (size - 1) stream)

/-- The C string in a buffer: the characters before the first NUL. -/
def cString (buf : List Char) : List Char := buf.takeWhile fun c => c != '\x00'

theorem fgets_shorter {stream buf rest : List Char} (read : fgets 255 stream = some (buf, rest)) :
    rest.length < stream.length := by
  cases stream with
  | nil => cases read
  | cons c s =>
      have shorter := LineReader.readChunk_shorter '\n' 253 c s
      rw [fgets, if_neg (List.cons_ne_nil c s)] at read
      rw [show LineReader.readChunk '\n' (253 + 1) (c :: s) = (buf, rest) from Option.some.inj read] at shorter
      exact shorter

/-- The loop of `confile_read`. `create` is called with every string that is not skipped. -/
def confileLoop {σ : Type} (create : σ → List Char → Except Fault σ) (s : σ) (stream : List Char) :
    Except Fault σ :=
  match _read : fgets 255 stream with
  | none => .ok s
  | some (buf, rest) =>
      if (cString buf).length = 255 then .error (.logErr "Line in config file too long!")
      else if buf.head? = some '#' then confileLoop create s rest
      else
        match create s (cString buf) with
        | .error fault => .error fault
        | .ok s' => confileLoop create s' rest
termination_by stream.length
decreasing_by
  · exact fgets_shorter _read
  · exact fgets_shorter _read

/-- `confile_read`, for a file that could not be opened or a file with the given content that can be read
    to its end. -/
def confileRead (clist : List Commodity) : Option (List Char) → Except Fault (Int × List Commodity)
  | none => .ok (-1, clist)
  | some content => do
      let clist ← confileLoop createCommodity clist content
      return (0, clist)

end Bprd
