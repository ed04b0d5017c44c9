import RoscoM68k.Base.Overlay
import RoscoM68k.Kernel.List

namespace RoscoM68k
open Function

-- An open file on media that do not fail.
structure FlFile where
  data : List UInt8
  bytenum : Nat

-- The result and the bytes for the caller's buffer. The code copies them sector by sector.
def flFread (file : FlFile) (count : Nat) : Int × List UInt8 × FlFile :=
  if count = 0 then (0,[],file)
  else if file.data.length ≤ file.bytenum then (-1,[],file)
  else
    let bs := (file.data.drop file.bytenum).take count
    (bs.length,bs,{ file with bytenum := file.bytenum + bs.length })

-- With SEEK_SET, which is content with an offset behind the end.
def flFseek (file : FlFile) (offset : Nat) : Int × FlFile :=
  (0,{ file with bytenum := min offset file.data.length })

-- A packed big-endian structure is read like memory.
def structBytes (bs : List UInt8) : Mem := fun i => bs.getD i 0

def ELFMAG : List Nat := [0x7f,0x45,0x4c,0x46]
def ELFCLASS32 : Nat := 1
def ELFDATA2MSB : Nat := 2
def EV_CURRENT : Nat := 1
def ET_EXEC : Nat := 2
def EM_68K : Nat := 4
def PT_NULL : Nat := 0
def PT_LOAD : Nat := 1

-- The fields of Elf32_Ehdr that the loader looks at.
structure Ehdr where
  mag : List Nat
  cls : Nat
  data : Nat
  identVersion : Nat
  type : Nat
  machine : Nat
  version : Nat
  entry : Nat
  phoff : Nat
  ehsize : Nat
  phentsize : Nat
  phnum : Nat

def Ehdr.size : Nat := 52

def Ehdr.ofBytes (bs : List UInt8) : Ehdr :=
  let m := structBytes bs
  { mag := [m.readB 0,m.readB 1,m.readB 2,m.readB 3]
    cls := m.readB 4
    data := m.readB 5
    identVersion := m.readB 6
    type := m.readW 16
    machine := m.readW 18
    version := m.readL 20
    entry := m.readL 24
    phoff := m.readL 28
    ehsize := m.readW 40
    phentsize := m.readW 42
    phnum := m.readW 44 }

structure Phdr where
  type : Nat
  offset : Nat
  vaddr : Nat
  filesz : Nat
  memsz : Nat
  align : Nat

def Phdr.size : Nat := 32

def Phdr.ofBytes (bs : List UInt8) : Phdr :=
  let m := structBytes bs
  { type := m.readL 0
    offset := m.readL 4
    vaddr := m.readL 8
    filesz := m.readL 16
    memsz := m.readL 20
    align := m.readL 28 }

-- Where the linker has put stage 2, and the address of the local variable that stands for the
-- stack pointer.
structure Stage2 where
  stage2Load : Nat
  stage2End : Nat
  dummyAddr : Nat

def sdbMemsize (m : Mem) : Nat := m.readL 0x414

def Stage2.stackGuardStart (L : Stage2) : Nat :=
  (L.dummyAddr + addressSpace - 0x1000) % addressSpace / 0x1000 * 0x1000

def loadRangeAllowed (L : Stage2) (memsize start size : Nat) : Bool :=
  if size = 0 then true
  else
    let offsetLast := size - 1
    if start > 0xFFFFFFFF - offsetLast then false
    else
      let last := start + offsetLast
      if last ≥ 0 ∧ start < 0x2000 then false
      else if last ≥ L.stage2Load ∧ start < L.stage2End then false
      else if last ≥ L.stackGuardStart ∧ start < memsize then false
      else true

inductive LoadError where
  | readEhdr
  | notElf
  | notClass32
  | notBigEndian
  | identVersion
  | notExecutable
  | notM68k
  | version
  | ehsize
  | noPhdrs
  | phentsize
  | seekPhdr
  | readPhdr
  | alignment
  | reserved
  | seekSegment
  | readSegment
  -- A size that is negative as a long: nothing is printed.
  | negative
  | noEntry
  deriving DecidableEq

-- `stored` keeps the addresses that have been stored to, in order; the headers and the counters
-- are the loader's local variables.
structure Loader where
  file : FlFile
  mem : Mem
  stored : List Nat
  kernelEntry : Nat

namespace Loader

def store (s : Loader) (a : Nat) (bs : List UInt8) : Loader :=
  { s with mem := storeList addressSpace s.mem a bs
           stored := s.stored ++ storeAddrs addressSpace a bs.length }

-- fl_fread to an address, which it refuses if it is NULL.
def fread (s : Loader) (buffer count : Nat) : Int × Loader :=
  if wrap buffer = 0 then (-1,s)
  else
    let r := flFread s.file count
    (r.1,{ s with file := r.2.2 }.store buffer r.2.1)

def memset (s : Loader) (a n : Nat) : Loader := s.store a (List.replicate n 0)

end Loader

def BLOCK_SIZE : Nat := 512
def BLOCKS_PER_DOT : Nat := 8
def BYTES_PER_DOT : Nat := BLOCKS_PER_DOT * BLOCK_SIZE

def thisCount (countToDo : Nat) : Nat :=
  if countToDo > BYTES_PER_DOT then BYTES_PER_DOT else countToDo

theorem thisCount_eq (n : Nat) : thisCount n = min n 4096 := by
  have hb : BYTES_PER_DOT = 4096 := rfl
  rw [thisCount,hb]
  split <;> omega

-- The loop that copies a segment, from `countDone` on.
def loadSegment (ph : Phdr) (s : Loader) (countDone : Nat) : Except LoadError Unit × Loader :=
  if _h : countDone < ph.filesz then
    let count := thisCount (ph.filesz - countDone)
    let r := s.fread (ph.vaddr + countDone) count
    if r.1 ≠ count then (.error .readSegment,r.2)
    else loadSegment ph r.2 (countDone + count)
  else (.ok (),s)
termination_by ph.filesz - countDone
decreasing_by
  rw [thisCount_eq]
  omega

-- The size that is left to clear is a size_t.
def loadKernelElfPhdrLoad (L : Stage2) (s : Loader) (ph : Phdr) : Except LoadError Unit × Loader :=
  if ph.align > 0 ∧ ph.vaddr % ph.align ≠ ph.offset % ph.align then (.error .alignment,s)
  else if ¬ loadRangeAllowed L (sdbMemsize s.mem) ph.vaddr ph.memsz then (.error .reserved,s)
  else
    let r := flFseek s.file ph.offset
    let s := { s with file := r.2 }
    if r.1 ≠ 0 then (.error .seekSegment,s)
    else match loadSegment ph s 0 with
      | (.error e,s) => (.error e,s)
      | (.ok (),s) =>
        let s := s.memset (ph.vaddr + ph.filesz) (wrap (ph.memsz + addressSpace - ph.filesz))
        if (BitVec.ofNat 32 ph.filesz).toInt < 0 then (.error .negative,s) else (.ok (),s)

-- The program headers with the given numbers.
def loadPhdrs (L : Stage2) (ehdr : Ehdr) : List Nat → Loader → Except LoadError Unit × Loader
  | [], s => (.ok (),s)
  | phidx :: rest, s =>
    let r := flFseek s.file (wrap (ehdr.phoff + phidx * ehdr.phentsize))
    let s := { s with file := r.2 }
    if r.1 ≠ 0 then (.error .seekPhdr,s)
    else
      let r := flFread s.file ehdr.phentsize
      let s := { s with file := r.2.2 }
      if r.1 ≠ ehdr.phentsize then (.error .readPhdr,s)
      else
        let ph := Phdr.ofBytes r.2.1
        if ph.type = PT_LOAD then
          match loadKernelElfPhdrLoad L s ph with
          | (.error e,s) => (.error e,s)
          | (.ok (),s) => loadPhdrs L ehdr rest s
        else loadPhdrs L ehdr rest s

-- The checks of the ELF header, in the loader's order.
def validateEhdr (ehdr : Ehdr) : Except LoadError Unit :=
  if ehdr.mag ≠ ELFMAG then .error .notElf
  else if ehdr.cls ≠ ELFCLASS32 then .error .notClass32
  else if ehdr.data ≠ ELFDATA2MSB then .error .notBigEndian
  else if ehdr.identVersion ≠ EV_CURRENT then .error .identVersion
  else if ehdr.type ≠ ET_EXEC then .error .notExecutable
  else if ehdr.machine ≠ EM_68K then .error .notM68k
  else if ehdr.version ≠ EV_CURRENT then .error .version
  else if ehdr.ehsize ≠ Ehdr.size then .error .ehsize
  else if ehdr.phoff = 0 then .error .noPhdrs
  else if ehdr.phentsize ≠ Phdr.size then .error .phentsize
  else .ok ()

def loadKernelElf (L : Stage2) (s : Loader) : Except LoadError Unit × Loader :=
  let r := flFread s.file Ehdr.size
  let s := { s with file := r.2.2 }
  if r.1 ≠ Ehdr.size then (.error .readEhdr,s)
  else
    let ehdr := Ehdr.ofBytes r.2.1
    match validateEhdr ehdr with
    | .error e => (.error e,s)
    | .ok () =>
      match loadPhdrs L ehdr (List.range ehdr.phnum) s with
      | (.error e,s) => (.error e,s)
      | (.ok (),s) =>
        if ehdr.entry ≠ 0 then (.ok (),{ s with kernelEntry := ehdr.entry })
        else (.error .noEntry,s)

-- The file as fl_fopen opens it.
def Loader.start (data : List UInt8) (m : Mem) (entry : Nat) : Loader := ⟨⟨data,0⟩,m,[],entry⟩

end RoscoM68k
