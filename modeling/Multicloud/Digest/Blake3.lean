namespace Multicloud.Digest.Blake3

abbrev Words (n : Nat) := Vector UInt32 n

def start : Words 8 :=
  #v[0x6A09E667, 0xBB67AE85, 0x3C6EF372, 0xA54FF53A, 0x510E527F, 0x9B05688C, 0x1F83D9AB,
    0x5BE0CD19]

def chunkStart : UInt32 := 1
def chunkEnd : UInt32 := 2
def parentFlag : UInt32 := 4
def rootFlag : UInt32 := 8

def rotateRight (x : UInt32) (n : UInt32) : UInt32 := (x >>> n) ||| (x <<< (32 - n))

def quarter (v : Words 16) (a b c d : Fin 16) (x y : UInt32) : Words 16 :=
  let va := v[a] + v[b] + x
  let vd := rotateRight (v[d] ^^^ va) 16
  let vc := v[c] + vd
  let vb := rotateRight (v[b] ^^^ vc) 12
  let va := va + vb + y
  let vd := rotateRight (vd ^^^ va) 8
  let vc := vc + vd
  let vb := rotateRight (vb ^^^ vc) 7
  (((v.set a va).set b vb).set c vc).set d vd

def round (v m : Words 16) : Words 16 :=
  let v := quarter v 0 4 8 12 m[0] m[1]
  let v := quarter v 1 5 9 13 m[2] m[3]
  let v := quarter v 2 6 10 14 m[4] m[5]
  let v := quarter v 3 7 11 15 m[6] m[7]
  let v := quarter v 0 5 10 15 m[8] m[9]
  let v := quarter v 1 6 11 12 m[10] m[11]
  let v := quarter v 2 7 8 13 m[12] m[13]
  quarter v 3 4 9 14 m[14] m[15]

def permute (m : Words 16) : Words 16 :=
  #v[m[2], m[6], m[3], m[10], m[7], m[0], m[4], m[13], m[1], m[11], m[12], m[5], m[9], m[14],
    m[15], m[8]]

def rounds : Nat → Words 16 → Words 16 → Words 16
  | 0, v, _ => v
  | n + 1, v, m => rounds n (round v m) (permute m)

/-- A compression that is still to be carried out: whether it is the last one, which is flagged,
shows only once the whole input has been seen. -/
structure Pending where
  chain : Words 8
  block : Words 16
  counter : UInt64
  size : UInt32
  flags : UInt32

def Pending.chained (p : Pending) : Words 8 :=
  let v : Words 16 :=
    p.chain ++ start.take 4 ++
      #v[p.counter.toUInt32, (p.counter >>> 32).toUInt32, p.size, p.flags]
  let v := rounds 7 v p.block
  Vector.ofFn fun i ↦ v[i.val] ^^^ v[i.val + 8]

def Pending.final (p : Pending) : Words 8 :=
  { p with flags := p.flags ||| rootFlag, counter := 0 }.chained

def byteAt (data : ByteArray) (i : Nat) : UInt32 :=
  if h : i < data.size then data[i].toUInt32 else 0

def wordAt (data : ByteArray) (i : Nat) : UInt32 :=
  byteAt data i ||| (byteAt data (i + 1) <<< 8) ||| (byteAt data (i + 2) <<< 16) |||
    (byteAt data (i + 3) <<< 24)

def blockAt (data : ByteArray) (i : Nat) : Words 16 :=
  Vector.ofFn fun k ↦ wordAt data (i + 4 * k.val)

def blocks (data : ByteArray) (stop : Nat) (index : UInt64) :
    Nat → Nat → Words 8 → UInt32 → Pending
  | 0, i, chain, flags =>
    { chain, block := blockAt data i
      counter := index, size := (stop - i).toUInt32, flags := flags ||| chunkEnd }
  | n + 1, i, chain, flags =>
    let p : Pending :=
      { chain, block := blockAt data i
        counter := index, size := 64, flags }
    blocks data stop index n (i + 64) p.chained 0

def chunk (data : ByteArray) (i stop : Nat) : Pending :=
  blocks data stop (i / 1024).toUInt64 ((stop - i - 1) / 64) i start chunkStart

def parent (left right : Words 8) : Pending :=
  { chain := start, block := left ++ right, counter := 0, size := 64, flags := parentFlag }

/-- Bytes `i` to `stop`. The left half of a subtree is the largest complete one that leaves the
right half something; `depth` bounds the height. -/
def subtree (data : ByteArray) : Nat → Nat → Nat → Pending
  | 0, i, stop => chunk data i stop
  | depth + 1, i, stop =>
    if stop - i ≤ 1024 then chunk data i stop
    else
      let half := 1024 * Nat.pow 2 ((stop - i - 1) / 1024).log2
      parent (subtree data depth i (i + half)).chained (subtree data depth (i + half) stop).chained

def littleEndian (w : UInt32) : List UInt8 :=
  [w.toUInt8, (w >>> 8).toUInt8, (w >>> 16).toUInt8, (w >>> 24).toUInt8]

def hash (data : ByteArray) : List UInt8 :=
  (subtree data (data.size.log2 + 1) 0 data.size).final.toList.flatMap littleEndian

end Multicloud.Digest.Blake3
