import RoscoM68k.Firmware.LzgMiniRuns
import RoscoM68k.Firmware.LzgRoundTrip

namespace RoscoM68k
open Function

def STAGE2_LOAD : Nat := 0xc0000
def RAMLIMIT : Nat := 0x100000
def STAGE2_SIZE : Nat := RAMLIMIT - STAGE2_LOAD

-- A `move` without a size is one of a word.
def moveWord (s d : Nat) : Nat := d / 65536 * 65536 + s % 65536

-- The memory and D0, where the decoder finds the source length and leaves it.
def decompress_stage2 (fuel : Nat) (m : Mem) (src_addr size : Nat) : Option (Mem × Nat) :=
  (LzgMini.LZG_Decode fuel m src_addr size STAGE2_LOAD STAGE2_SIZE).map
    fun r => (r.1,moveWord r.2 size)

-- What default_program_loader calls stage 2 with, if it does not stop.
def default_program_loader (fuel : Nat) (m : Mem) (zip_start zip_end : Nat) :
    Option (Option Mem) :=
  (decompress_stage2 fuel m zip_start (low32 (zip_end + 4294967296 - zip_start))).map
    fun r => if r.2 = 0 then none else some r.1

section Booting

variable {m : Mem} {fuel zip_start : Nat} {block image : List UInt8}

-- A block where the firmware has it.
structure Flashed (m : Mem) (zip_start : Nat) (block : List UInt8) : Prop where
  slice : slice m zip_start block.length = block
  short : block.length ≤ 65552
  small : zip_start + block.length < 4294967292
  apart : Apart STAGE2_LOAD STAGE2_SIZE zip_start block.length

theorem header_field (h : LzgBlock block image) (hf : Flashed m zip_start block) :
    LzgMini.getUINT32 m zip_start 7 + 16 = block.length := by
  have hle := h.header_le
  have hsmall := hf.small
  have hshort := hf.short
  obtain ⟨n,hn⟩ := Nat.exists_eq_add_of_le hle
  have hslice := hf.slice
  obtain ⟨method,data,heq,hdata,-,-⟩ := h
  have hlen : block.length = 16 + data.length := by
    rw [heq,withHeader_eq]
    simp only [List.length_append,List.length_cons,List.length_nil]
  rw [hlen,LzgMini.header_at] at hslice
  rw [heq,withHeader_eq] at hslice
  simp only [List.cons_append,List.nil_append,List.cons.injEq] at hslice
  obtain ⟨-,-,-,-,-,-,-,h7,h8,h9,h10,-⟩ := hslice
  rw [LzgMini.getUINT32_eq (by omega),h7,h8,h9,h10,join32_bytes32 hdata,hlen,Nat.add_comm]

theorem decompress_stage2_spec (hf : Flashed m zip_start block) (h : LzgBlock block image)
    (hfit : image.length ≤ STAGE2_SIZE) (hfuel : STAGE2_SIZE < fuel) :
    decompress_stage2 fuel m zip_start block.length =
      some (overlay m STAGE2_LOAD image,moveWord image.length block.length) := by
  have hfield := header_field h hf
  have hshort := hf.short
  have hload : 526343 ≤ STAGE2_LOAD := by norm_num [STAGE2_LOAD]
  have hhigh : STAGE2_LOAD + STAGE2_SIZE + 128 ≤ 4294967296 := by
    norm_num [STAGE2_LOAD,STAGE2_SIZE,RAMLIMIT]
  have hrun : LzgMini.LZG_Decode fuel m zip_start block.length STAGE2_LOAD STAGE2_SIZE =
      some (overlay m STAGE2_LOAD image,image.length) := by
    rcases LzgMini.decode_spec (m := m) hf.small hshort hload hhigh hf.apart hfuel
      ⟨by omega,by omega⟩ with ⟨out,hrun,-,hblock⟩ | ⟨out,hrun,-,hno⟩
    · rw [hf.slice] at hblock
      rwa [h.unique hblock]
    · rw [hf.slice] at hno
      obtain ⟨rfl,rfl⟩ := hno image h hfit
      exact hrun
  rw [decompress_stage2,hrun]
  rfl

end Booting
end RoscoM68k
