import GracefulMusic.Cache.Table
import GracefulMusic.Foundation.Bytes
import GracefulMusic.Text

/-! Entries of the cache file (`cache.c`).

An entry is a `struct cache_entry` of 80 bytes and its strings: filename, codec, codec
profile, and keys and values in turn. Of a `track_info` there is what the entry keeps;
the other fields are made from the comments and the filename alone. A string that is read
has its terminator inside the entry, or the read goes out of it (`none`). -/
namespace GracefulMusic.Cache

/-- The order of the bytes, and whether a `long` has 64 bits. -/
structure Host where
  order : Bytes.Order
  long64 : Bool

/-- `sizeof(long)`. -/
def Host.longSize (host : Host) : Nat := if host.long64 then 8 else 4

/-- A string in memory, before its terminator. -/
abbrev CString := {s : Text // 0 ∉ s}

def CString.empty : CString := ⟨[], List.not_mem_nil⟩

structure Ti where
  filename : CString
  comments : List (CString × CString)
  duration : Int32
  bitrate : Int
  mtime : Int64
  playCount : UInt32
  bpm : Int32
  codec : Option CString
  codecProfile : Option CString
  deriving DecidableEq

/-! ### Comments -/

def keyValueGetValue (comments : List (CString × CString)) (key : Text) : Option Text :=
  (comments.find? fun kv => strcasecmp kv.1.val key = 0).map fun kv => kv.2.val

def commentsGetInt (comments : List (CString × CString)) (key : Text) : Int32 :=
  match keyValueGetValue comments key with
  | none => -1
  | some val =>
    match strToInt (val.dropWhile fun c => !isDigit c) with
    | (ival, true) => .ofInt ival
    | (_, false) => -1

/-- What `track_info_set_comments` makes of the beats that are there. -/
def setBpm (comments : List (CString × CString)) (bpm : Int32) : Int32 :=
  if bpm = 0 ∨ bpm = -1 then commentsGetInt comments (ascii "bpm") else bpm

/-! ### Layout -/

/-- `CACHE_ENTRY_TOTAL_SIZE`. -/
def entryTotalSize : Nat := 80

def entryReservedSize : Nat := 52

/-- The numbers of a `struct cache_entry`. -/
structure Numbers where
  size : UInt32
  playCount : Int32
  mtime : Int64
  duration : Int32
  bitrate : Int32
  bpm : Int32
  deriving DecidableEq

section
variable (host : Host)

def Numbers.bytes (n : Numbers) : Text :=
  Bytes.ofNat host.order 4 n.size.toNat ++
  (Bytes.ofNat host.order 4 n.playCount.toUInt32.toNat ++
  (Bytes.ofNat host.order 8 n.mtime.toUInt64.toNat ++
  (Bytes.ofNat host.order 4 n.duration.toUInt32.toNat ++
  (Bytes.ofNat host.order 4 n.bitrate.toUInt32.toNat ++
  (Bytes.ofNat host.order 4 n.bpm.toUInt32.toNat ++
  List.replicate entryReservedSize 0xff)))))

def uint32At (e : Text) (pos : Nat) : UInt32 := .ofNat (Bytes.toNat host.order ((e.drop pos).take 4))

def uint64At (e : Text) (pos : Nat) : UInt64 := .ofNat (Bytes.toNat host.order ((e.drop pos).take 8))

def Numbers.read (e : Text) : Numbers where
  size := uint32At host e 0
  playCount := (uint32At host e 4).toInt32
  mtime := (uint64At host e 8).toInt64
  duration := (uint32At host e 16).toInt32
  bitrate := (uint32At host e 20).toInt32
  bpm := (uint32At host e 24).toInt32

end

/-- `strings`, as far as the entry goes. -/
def strings (e : Text) (size : Nat) : Text := (e.drop entryTotalSize).take (size - entryTotalSize)

/-! ### Reading -/

/-- `valid_cache_entry` for what stands at an entry and after it, with the count of bytes
that the file has left; `none` where the counter, an `int`, overflows. -/
def validCacheEntry (host : Host) (e : Text) (avail : Nat) : Option Bool :=
  if avail < entryTotalSize then some false
  else
    let size := (uint32At host e 0).toNat
    if size < entryTotalSize ∨ avail < size then some false
    else if 2 ^ 31 ≤ size - entryTotalSize then none
    else
      let s := strings e size
      if s.count 0 % 2 = 0 then some false
      else some (s.getLast? = some 0)

/-- The string at a position. -/
def stringAt (s : Text) (pos : Nat) : Option CString :=
  let t := (s.drop pos).takeWhile fun c => c ≠ 0
  if pos + t.length < s.length then
    some ⟨t, fun h => by simpa using List.mem_takeWhile_imp h⟩
  else none

/-- Keys and values from a position on. -/
def readPairs (s : Text) : Nat → Nat → Option (List (CString × CString))
  | 0, _ => some []
  | n + 1, pos => do
    let key ← stringAt s pos
    let value ← stringAt s (pos + key.val.length + 1)
    let rest ← readPairs s n (pos + key.val.length + 1 + value.val.length + 1)
    some ((key, value) :: rest)

/-- A pointer to a string that is not empty, or `NULL`. -/
def nonEmpty (s : CString) : Option CString := if s.val = [] then none else some s

/-- `cache_entry_to_ti`. Where the number of pairs is negative, the end of the array of
pairs is written outside of it. -/
def cacheEntryToTi (host : Host) (e : Text) : Option Ti := do
  let n := Numbers.read host e
  let s := strings e n.size.toNat
  let count : Int := (s.count 0 - 3 : Int).tdiv 2
  let filename ← stringAt s 0
  let codec ← stringAt s (filename.val.length + 1)
  let pos := filename.val.length + 1 + codec.val.length + 1
  let codecProfile ← stringAt s pos
  if count < 0 then none
  else
    let comments ← readPairs s count.toNat (pos + codecProfile.val.length + 1)
    some {
      filename, comments
      duration := n.duration
      bitrate := n.bitrate.toInt
      mtime := n.mtime
      playCount := n.playCount.toUInt32
      bpm := setBpm comments n.bpm
      codec := nonEmpty codec
      codecProfile := nonEmpty codecProfile }

end GracefulMusic.Cache

/-! The cache file (`cache.c`, `gbuf.c`).

The entries are written through a buffer that is flushed before an entry that does not
fit, and each begins at a multiple of the size of a `long`. What is written is written as
a whole. Where an `int` overflows or memory is read outside of an entry, there is no
result. -/
namespace GracefulMusic.Cache

/-! ### The buffer -/

structure Gbuf where
  buffer : Text
  alloc : Nat

namespace Gbuf

def avail (b : Gbuf) : Nat := if b.alloc = 0 then 0 else b.alloc - b.buffer.length - 1

def grow (b : Gbuf) (more : Nat) : Gbuf :=
  let alloc := (b.buffer.length + more + 1 + 63) / 64 * 64
  if alloc > b.alloc then {b with alloc} else b

def addBytes (b : Gbuf) (data : Text) : Gbuf :=
  {b.grow data.length with buffer := b.buffer ++ data}

def set (b : Gbuf) (c : UInt8) (count : Nat) : Gbuf := b.addBytes (List.replicate count c)

def clear (b : Gbuf) : Gbuf := {b with buffer := []}

end Gbuf

/-! ### Writing -/

section
variable (host : Host)

/-- `ALIGN`. -/
def align (size : Nat) : Nat := (size + host.longSize - 1) / host.longSize * host.longSize

/-- Version and flags after the magic. -/
def cacheHeader : Text :=
  ascii "CTC" ++
    [0x0d, 0, 0, 0, (if host.order = .big then 2 else 0) + if host.long64 then 1 else 0]

/-- What is in the file, what is in the buffer, and `offset`. -/
structure Writer where
  file : Text
  buf : Gbuf
  offset : Nat

/-- The length of a string with its terminator, in an `int`. -/
def lenOf (s : Text) : Option Nat := if s.length + 1 < 2 ^ 31 then some (s.length + 1) else none

/-- The lengths of keys and values; `alloc`, how many lengths there is room for, is an
`int`. -/
def pairLens : List (CString × CString) → (alloc count : Nat) → Option (List Nat)
  | [], _, _ => some []
  | (key, value) :: rest, alloc, count => do
    let alloc := if count + 2 > alloc then alloc * 2 else alloc
    if 2 ^ 31 ≤ alloc then none
    else
      let a ← lenOf key.val
      let b ← lenOf value.val
      let lens ← pairLens rest alloc (count + 2)
      some (a :: b :: lens)

/-- What a pointer to a string has, an empty string where it is `NULL`. -/
def orEmpty (s : Option CString) : Text := (s.map Subtype.val).getD []

def lens (ti : Ti) : Option (List Nat) := do
  let a ← lenOf ti.filename.val
  let b ← lenOf (orEmpty ti.codec)
  let c ← lenOf (orEmpty ti.codecProfile)
  let rest ← pairLens ti.comments 64 3
  some (a :: b :: c :: rest)

def pairStrings (comments : List (CString × CString)) : List Text :=
  comments.flatMap fun kv => [kv.1.val, kv.2.val]

def tiStrings (ti : Ti) : List Text :=
  ti.filename.val :: orEmpty ti.codec :: orEmpty ti.codecProfile :: pairStrings ti.comments

def numbers (ti : Ti) (size : Nat) : Numbers where
  size := .ofNat size
  playCount := ti.playCount.toInt32
  mtime := ti.mtime
  duration := ti.duration
  bitrate := .ofInt ti.bitrate
  bpm := ti.bpm

def flushBuffer (w : Writer) : Writer :=
  if w.buf.buffer = [] then w else {w with file := w.file ++ w.buf.buffer, buf := w.buf.clear}

/-- So many bytes from where a string begins. -/
def addStrings (b : Gbuf) : List Text → List Nat → Gbuf
  | s :: ss, len :: lens => addStrings (b.addBytes ((s ++ [0]).take len)) ss lens
  | _, _ => b

def writeTi (ti : Ti) (w : Writer) : Option Writer := do
  let lens ← lens ti
  let size := (entryTotalSize + lens.sum) % 2 ^ 32
  let pad := align host w.offset - w.offset
  let w := if w.buf.avail < (pad + size) % 2 ^ 32 then flushBuffer w else w
  let buf := if pad = 0 then w.buf else w.buf.set 0 pad
  let buf := buf.addBytes ((numbers ti size).bytes host)
  some {w with buf := addStrings buf (tiStrings ti) lens, offset := (w.offset + pad + size) % 2 ^ 32}

def writeTis : List Ti → Writer → Option Writer
  | [], w => some w
  | ti :: rest, w => (writeTi host ti w).bind (writeTis rest)

/-- `get_track_infos`. -/
def getTrackInfos (t : Table Ti) : List Ti := t.sorted fun ti => ti.filename.val

/-- `cache_close`: what is in the file at its end. -/
def cacheClose (t : Table Ti) : Option Text :=
  let buf := ((⟨[], 0⟩ : Gbuf).grow (64 * 1024 - 1)).addBytes (cacheHeader host)
  (writeTis host ((getTrackInfos t).take t.total) ⟨[], buf, 8⟩).map fun w => (flushBuffer w).file

/-! ### Reading -/

def addEntry (t : Table Ti) (ti : Ti) : Table Ti := t.addTi (fun ti => ti.filename.val) ti

/-- What `read_cache` returns: the table with 0, or -1 or -2. -/
inductive ReadResult where
  | ok (t : Table Ti)
  | failed
  | corrupt

/-- Where the loop goes on after the entry at an offset. -/
def nextOffset (buf : Text) (offset : Nat) : Nat :=
  (offset + align host (uint32At host (buf.drop offset) 0).toNat) % 2 ^ 32

def readLoop (buf : Text) (size : Nat) : Nat → Nat → Table Ti → Option ReadResult
  | 0, _, _ => none
  | fuel + 1, offset, t =>
    if offset < size then do
      let valid ← validCacheEntry host (buf.drop offset) (size - offset)
      if valid then
        let ti ← cacheEntryToTi host (buf.drop offset)
        readLoop buf size fuel (nextOffset host buf offset) (addEntry t ti)
      else some .corrupt
    else some (.ok t)

/-- `read_cache`, for a file that is there; its size is taken as an `unsigned int`. -/
def readCache (file : Text) : Option ReadResult :=
  if file.length < 8 then some .corrupt
  else
    let size := file.length % 2 ^ 32
    if size = 0 then some .failed
    else if file.take 8 ≠ cacheHeader host then some .corrupt
    else readLoop host (file.take size) size (size + 1) 8 Table.empty

end

end GracefulMusic.Cache
