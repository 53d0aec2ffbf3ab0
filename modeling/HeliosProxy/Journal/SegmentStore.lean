import HeliosProxy.Lib.Bytes

/-!
# The segmented store of the journal

`journal_store.rs` appends each committed transaction to a segment file, a frame of
magic number, length, checksum and payload, and reads the segments back at startup.  A
directory is a list of files, each with the number in its name and its bytes; the
payload's encoding is a parameter that decodes what it encoded.
-/

namespace HeliosProxy.Journal

open Wire

structure Codec (Tx : Type) where
  encode : Tx → Bytes
  decode : Bytes → Option Tx
  decode_encode : ∀ tx, decode (encode tx) = some tx
  commitSeq : Tx → Option Nat
  totalSize : Tx → Nat

structure StoreConfig where
  segmentBytes : Nat
  segmentBytes_pos : 0 < segmentBytes
  retainBytes : Nat
  /-- The caps on what a restart gives back. -/
  maxTxs : Nat
  maxBytes : Nat

/-! ## Records -/

def magic : Bytes := [72, 74, 48, 50]

def legacyMagic : Bytes := [72, 74, 48, 49]

/-- `HEADER`. -/
def headerLen : Nat := 12

def maxPayload : Nat := 256 * 1024 * 1024

/-- One entry of the table of `crc32`. -/
def crcEntry : Nat → UInt32 → UInt32
  | 0, c => c
  | n + 1, c => crcEntry n (if c &&& 1 ≠ 0 then (0xEDB88320 : UInt32) ^^^ (c >>> 1) else c >>> 1)

def crc32 (data : Bytes) : UInt32 :=
  ~~~(data.foldl
    (fun crc b => crcEntry 8 ((crc ^^^ b.toUInt32) &&& 0xFF) ^^^ (crc >>> 8)) 0xFFFFFFFF)

variable {Tx : Type} (C : Codec Tx)

/-- The bytes `Writer::append` writes for a transaction. -/
def frame (tx : Tx) : Bytes :=
  magic ++ toBeBytes (UInt32.ofNat (C.encode tx).length) ++ toBeBytes
    (crc32 (C.encode tx)) ++ C.encode tx

inductive ReadStop
  /-- Not even a whole header is left. -/
  | cleanEnd
  | unsupported
  | corrupt
deriving DecidableEq

def readRecord (r : Bytes) : Except ReadStop (Tx × Bytes) :=
  let header := r.take headerLen
  if header.length < headerLen then .error .cleanEnd
  else if header.take 4 = legacyMagic then .error .unsupported
  else if header.take 4 ≠ magic then .error .corrupt
  else
    let len := (fromBeBytes ((header.drop 4).take 4)).toNat
    let crc := fromBeBytes (header.drop 8)
    if len = 0 ∨ maxPayload < len then .error .corrupt
    else
      let payload := (r.drop headerLen).take len
      if payload.length < len then .error .corrupt
      else if crc32 payload ≠ crc then .error .corrupt
      else
        match C.decode payload with
        | some tx => .ok (tx, (r.drop headerLen).drop len)
        | none => .error .corrupt

/-! ## Recovery -/

abbrev Dir := List (Nat × Bytes)

def listSegments (dir : Dir) : Dir := dir.mergeSort fun a b => a.1 ≤ b.1

/-- What `SegmentStore::open` has read so far. -/
structure Recovered (Tx : Type) where
  transactions : List Tx
  ringBytes : Nat
  recordsRead : Nat
  commitSeqHigh : Nat
  truncatedBytes : Nat

def Recovered.none : Recovered Tx :=
  { transactions := [], ringBytes := 0, recordsRead := 0, commitSeqHigh := 0, truncatedBytes := 0 }

def Recovered.evict (cfg : StoreConfig) (rec : Recovered Tx) : Recovered Tx :=
  go rec.transactions rec.ringBytes
where
  go : List Tx → Nat → Recovered Tx
    | [], bytes => { rec with transactions := [], ringBytes := bytes }
    | tx :: ring, bytes =>
      if max cfg.maxTxs 1 < (tx :: ring).length ∨
          (cfg.maxBytes < bytes ∧ 1 < (tx :: ring).length) then
        go ring (bytes - C.totalSize tx)
      else { rec with transactions := tx :: ring, ringBytes := bytes }

def Recovered.add (rec : Recovered Tx) (tx : Tx) : Recovered Tx :=
  { rec with
    transactions := rec.transactions ++ [tx]
    ringBytes := rec.ringBytes + C.totalSize tx
    recordsRead := rec.recordsRead + 1
    commitSeqHigh := max rec.commitSeqHigh ((C.commitSeq tx).getD 0) }

def Recovered.push (cfg : StoreConfig) (rec : Recovered Tx) (tx : Tx) : Recovered Tx :=
  Recovered.evict C cfg (rec.add C tx)

/-- The segments in order; a torn end of the last one is cut off, one of an earlier
segment stays.  A segment in the old format stops the startup. -/
def recoverFrom (cfg : StoreConfig) : Recovered Tx → Dir → Option (Recovered Tx × Dir)
  | rec, [] => some (rec, [])
  | rec, (name, bytes) :: segments =>
    let (txs, left, stop) := Framed.readAll (readRecord C) (bytes.length + 1) bytes
    let rec' := txs.foldl (Recovered.push C cfg) rec
    match stop with
    | some .unsupported => none
    | some .corrupt =>
      let kept := if segments.isEmpty then bytes.take (bytes.length - left.length) else bytes
      (recoverFrom cfg
        { rec' with truncatedBytes := rec'.truncatedBytes + left.length } segments).map
        fun (rec, dir) => (rec, (name, kept) :: dir)
    | _ => (recoverFrom cfg rec' segments).map fun (rec, dir) => (rec, (name, bytes) :: dir)

/-- `SegmentStore::open`: what is recovered, and the directory it leaves. -/
def openStore (cfg : StoreConfig) (dir : Dir) : Option (Recovered Tx × Dir) :=
  recoverFrom C cfg .none (listSegments dir)

/-! ## The writer -/

def Dir.has (dir : Dir) (name : Nat) : Bool := dir.any fun f => f.1 == name

def Dir.create (dir : Dir) (name : Nat) : Dir :=
  if Dir.has dir name then dir else dir ++ [(name, [])]

def Dir.rename (dir : Dir) (old new : Nat) : Dir :=
  dir.map fun f => if f.1 = old then (new, f.2) else f

def Dir.append (dir : Dir) (name : Nat) (bytes : Bytes) : Dir :=
  dir.map fun f => if f.1 = name then (f.1, f.2 ++ bytes) else f

/-- The writer's open segment and the length it knows of it, with the directory. -/
structure Writer where
  dir : Dir
  path : Nat
  len : Nat
deriving DecidableEq

/-- `Writer::open`: the newest segment while it has room, or a new one. -/
def openWriter (cfg : StoreConfig) (dir : Dir) : Writer :=
  match (listSegments dir).getLast? with
  | some (name, bytes) =>
    if bytes.length < cfg.segmentBytes then { dir, path := name, len := bytes.length }
    else { dir := Dir.create dir (name + 1), path := name + 1, len := 0 }
  | none => { dir := Dir.create dir 1, path := 1, len := 0 }

/-- The segments `enforce_retention` removes. -/
def retired (cfg : StoreConfig) (path : Nat) : Dir → Nat → List Nat
  | f :: g :: segments, total =>
    if cfg.retainBytes < total ∧ f.1 ≠ path then
      f.1 :: retired cfg path (g :: segments) (total - f.2.length)
    else []
  | _, _ => []

def Dir.bytes (dir : Dir) : Nat := (dir.map fun f => f.2.length).sum

def enforceRetention (cfg : StoreConfig) (w : Writer) : Writer :=
  let gone := retired cfg w.path (listSegments w.dir) (Dir.bytes w.dir)
  { w with dir := w.dir.filter fun f => f.1 ∉ gone }

def rotate (cfg : StoreConfig) (w : Writer) (firstSeq : Nat) : Writer :=
  enforceRetention cfg { dir := Dir.create w.dir firstSeq, path := firstSeq, len := 0 }

/-- What `append` does before it writes: a full segment is closed, and an empty one is
named after the transaction. -/
def prepare (cfg : StoreConfig) (w : Writer) (seq : Nat) : Writer :=
  if cfg.segmentBytes ≤ w.len ∧ 0 < w.len then rotate cfg w seq
  else if w.len = 0 then
    if seq ≠ w.path ∧
      !Dir.has w.dir seq then { w with dir := Dir.rename w.dir w.path seq, path := seq }
    else w
  else w

/-- `Writer::append`, of which only the first `written` bytes reach the file. -/
def append (cfg : StoreConfig) (w : Writer) (tx : Tx) (written : Nat) : Writer :=
  let w' := prepare cfg w ((C.commitSeq tx).getD 0)
  let buf := frame C tx
  { w' with
    dir := Dir.append w'.dir w'.path (buf.take written)
    len := if buf.length ≤ written then w'.len + buf.length else w'.len }

/-! ## Runs -/

/-- An append whose first `written` bytes reach the file, or a restart.  A crash inside
an append is a short write followed by a restart. -/
inductive StoreEvent (Tx : Type)
  | append (tx : Tx) (written : Nat)
  | reopen

/-- `SegmentStore::open` and then `Writer::open`. -/
def reopen (cfg : StoreConfig) (dir : Dir) : Option Writer :=
  (openStore C cfg dir).map fun (_, dir) => openWriter cfg dir

def storeStep (cfg : StoreConfig) (w : Writer) : StoreEvent Tx → Option Writer
  | .append tx written => some (append C cfg w tx written)
  | .reopen => reopen C cfg w.dir

def StoreEvent.completes : StoreEvent Tx → Option Tx
  | .append tx written => if (frame C tx).length ≤ written then some tx else none
  | .reopen => none

def completed (es : List (StoreEvent Tx)) : List Tx := es.filterMap (StoreEvent.completes C)

end HeliosProxy.Journal
