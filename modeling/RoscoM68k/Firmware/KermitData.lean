import RoscoM68k.Base.Endian
import RoscoM68k.Firmware.KermitPackets
import RoscoM68k.Firmware.KermitSend
namespace RoscoM68k
namespace Kermit

-- Bytes that are read one character after the other, whatever is behind them.
inductive Decodes (x : Prefixes) : List UInt8 → List UInt8 → Prop
  | nil : Decodes x [] []
  | char {a c : UInt8} {rpt : Nat} {e es out : List UInt8} (ha : a ≠ 0) (hr : 0 < rpt)
      (h : ∀ rest, x.decodeChar a (e ++ rest) = .ok (rpt,c,rest)) (hs : Decodes x es out) :
      Decodes x (a :: e ++ es) (List.replicate rpt c ++ out)

namespace Decodes

variable {x : Prefixes} {s t out out' : List UInt8}

theorem append (h : Decodes x s out) (h' : Decodes x t out') :
    Decodes x (s ++ t) (out ++ out') := by
  induction h with
  | nil => exact h'
  | char ha hr h hs ih =>
    rw [List.append_assoc,List.append_assoc]
    exact .char ha hr h ih

theorem one {a c : UInt8} {rpt : Nat} {e : List UInt8} (ha : a ≠ 0) (hr : 0 < rpt)
    (h : ∀ rest, x.decodeChar a (e ++ rest) = .ok (rpt,c,rest)) :
    Decodes x (a :: e) (List.replicate rpt c) := by
  have hone := Decodes.char ha hr h .nil
  rwa [List.append_nil,List.append_nil] at hone

theorem nonempty (h : Decodes x s out) (hs : s ≠ []) : out ≠ [] := by
  cases h with
  | nil => exact absurd rfl hs
  | char ha hr h hs =>
    intro he
    have hlen := congrArg List.length he
    rw [List.length_append,List.length_replicate,List.length_nil] at hlen
    omega

-- A NUL ends the data.
theorem decodeLoop_eq (h : Decodes x s out) {n : Nat} (hn : s.length < n) (rest acc : List UInt8) :
    x.decodeLoop n (s ++ 0 :: rest) acc = .ok (acc ++ out) := by
  induction h generalizing n acc with
  | nil =>
    obtain ⟨n,rfl⟩ := Nat.exists_eq_succ_of_ne_zero (by simp at hn; omega : n ≠ 0)
    rw [List.nil_append,Prefixes.decodeLoop,takeByte,ok_bind]
    dsimp only
    rw [if_pos rfl,List.append_nil]
  | @char a c rpt e es out ha hr h hs ih =>
    obtain ⟨n,rfl⟩ := Nat.exists_eq_succ_of_ne_zero (by simp at hn; omega : n ≠ 0)
    have hlen : es.length < n := by
      simp only [List.length_append,List.length_cons] at hn
      omega
    rw [List.cons_append,List.cons_append,List.append_assoc,Prefixes.decodeLoop,takeByte,ok_bind]
    dsimp only
    rw [if_neg ha,h,ok_bind]
    dsimp only
    rw [ih hlen,List.append_assoc]

end Decodes

-- The two sides have agreed on the prefixes, which are printed and differ from each other.
structure Sender.Matches (k : Sender) (x : Prefixes) : Prop where
  ctlq : x.r_ctlq = k.s_ctlq
  ebq : x.ebq = k.ebq
  rptq : x.rptq = k.rptq
  rptflg : x.rptflg = k.rptflg
  parity : x.parity ≠ 0 ↔ k.ebqflg = true
  ctlq_prefixable : prefixable k.s_ctlq
  ebq_prefixable : k.ebqflg = true → prefixable k.ebq ∧ k.ebq ≠ k.s_ctlq
  rptq_prefixable : k.rptflg = true → prefixable k.rptq ∧ k.rptq ≠ k.s_ctlq
  apart : k.ebqflg = true → k.rptflg = true → k.ebq ≠ k.rptq

section Characters

-- What the prefixes do to each of the bytes.
set_option maxRecDepth 8000 in
theorem byte_table : ∀ a : UInt8,
    (a &&& 127 < 32 ∨ a &&& 127 = 127 → uncontrol (ctl a) = a ∧ ¬ ctl a &&& 127 < 32) ∧
    (prefixable (a &&& 127) = true → uncontrol a = a) ∧
    (prefixable a = true → a &&& 127 = a ∧ a < 128 ∧ a ≠ 0 ∧ ¬ a &&& 127 < 32) ∧
    (a &&& 128 ≠ 0 → (a &&& 127) ||| 0x80 = a) :=
  byte_all (by decide)

theorem uncontrol_ctl (a : UInt8) (h : a &&& 127 < 32 ∨ a &&& 127 = 127) : uncontrol (ctl a) = a :=
  ((byte_table a).1 h).1

theorem uncontrol_prefixable (a : UInt8) (h : prefixable (a &&& 127) = true) : uncontrol a = a :=
  (byte_table a).2.1 h

theorem prefixable_low (a : UInt8) (h : prefixable a = true) : a &&& 127 = a ∧ a < 128 ∧ a ≠ 0 := by
  obtain ⟨hlow,hlt,hz,-⟩ := (byte_table a).2.2.1 h
  exact ⟨hlow,hlt,hz⟩

theorem low_low (a : UInt8) : (a &&& 127) &&& 127 = a &&& 127 := by
  rw [UInt8.and_assoc]
  rfl

theorem low_eighth (a : UInt8) (h : a &&& 128 ≠ 0) : (a &&& 127) ||| 0x80 = a :=
  (byte_table a).2.2.2 h

theorem low_toNat (a : UInt8) : (a &&& 127).toNat = a.toNat % 128 := by
  rw [UInt8.toNat_and]
  exact Nat.and_two_pow_sub_one_eq_mod a.toNat 7

theorem low_of_lt (a : UInt8) (h : a < 128) : a &&& 127 = a := by
  apply UInt8.toNat_inj.mp
  rw [low_toNat]
  exact Nat.mod_eq_of_lt (UInt8.lt_iff_toNat_lt.mp h)

theorem low_printed (a : UInt8) (h : ¬ a &&& 127 < 32) : a ≠ 0 := by
  rintro rfl
  exact h (by decide)

theorem isChar_iff {a c : UInt8} : isChar a c ↔ c < 128 ∧ a = c := by
  rw [isChar,decide_eq_true_iff]

end Characters

namespace Sender.Matches

variable {k : Sender} {x : Prefixes} (h : k.Matches x)
include h

theorem ctlq_char (a : UInt8) : isChar a x.r_ctlq ↔ a = k.s_ctlq := by
  rw [h.ctlq,isChar_iff]
  exact and_iff_right (prefixable_low _ h.ctlq_prefixable).2.1

theorem ebq_char (a : UInt8) : x.parity ≠ 0 ∧ isChar a x.ebq ↔ k.ebqflg = true ∧ a = k.ebq := by
  rw [h.parity,h.ebq,isChar_iff]
  exact and_congr_right fun hf => and_iff_right (prefixable_low _ (h.ebq_prefixable hf).1).2.1

theorem rptq_char (a : UInt8) : x.rptflg ∧ isChar a x.rptq ↔ k.rptflg = true ∧ a = k.rptq := by
  rw [h.rptflg,h.rptq,isChar_iff]
  exact and_congr_right fun hf => and_iff_right (prefixable_low _ (h.rptq_prefixable hf).1).2.1

-- A character with its control prefix, or one that is no prefix itself.
theorem decodeControl_quoteChar (a : UInt8) :
    ∃ b e, k.quoteChar (a &&& 127) a = b :: e ∧ b ≠ 0 ∧
      (b = k.s_ctlq ∨ b = a ∧ ¬ (k.ebqflg = true ∧ a &&& 127 = k.ebq) ∧
        ¬ (k.rptflg = true ∧ a &&& 127 = k.rptq)) ∧
      ∀ rest, x.decodeControl b (e ++ rest) = .ok (a,rest) := by
  have hquoted (c : UInt8) (hc : uncontrol c = a) (rest : List UInt8) :
      x.decodeControl k.s_ctlq ([c] ++ rest) = .ok (a,rest) := by
    rw [Prefixes.decodeControl,if_pos ((h.ctlq_char _).mpr rfl),List.singleton_append,takeByte,
      ok_bind]
    dsimp only
    rw [hc]
  have hctlq := (prefixable_low _ h.ctlq_prefixable).2.2
  rw [Sender.quoteChar]
  split
  · rename_i hrange
    exact ⟨k.s_ctlq,[ctl a],rfl,hctlq,.inl rfl,hquoted (ctl a) (uncontrol_ctl a hrange)⟩
  · rename_i hrange
    split
    · rename_i hq
      have hprefix : prefixable (a &&& 127) := by
        obtain hc | ⟨hf,he⟩ | ⟨hf,hr⟩ := hq
        · rw [hc]
          exact h.ctlq_prefixable
        · rw [he]
          exact (h.ebq_prefixable hf).1
        · rw [hr]
          exact (h.rptq_prefixable hf).1
      exact ⟨k.s_ctlq,[a],rfl,hctlq,.inl rfl,hquoted a (uncontrol_prefixable a hprefix)⟩
    · rename_i hq
      obtain ⟨hc,he,hr⟩ := by simpa only [not_or] using hq
      refine ⟨a,[],rfl,low_printed a (not_or.mp hrange).1,.inr ⟨rfl,he,hr⟩,?_⟩
      intro rest
      have hne : ¬ isChar a x.r_ctlq := by
        rw [h.ctlq_char]
        intro he
        exact hc (he ▸ (prefixable_low _ h.ctlq_prefixable).1)
      rw [Prefixes.decodeControl,if_neg hne]
      rfl

theorem decodeEighth_encodeChar (a : UInt8) :
    ∃ b e, k.encodeChar a = b :: e ∧ b ≠ 0 ∧ ¬ (k.rptflg = true ∧ b = k.rptq) ∧
      ∀ rest, x.decodeEighth b (e ++ rest) = .ok (a,rest) := by
  rw [Sender.encodeChar]
  split
  · rename_i heighth
    obtain ⟨hf,hbit⟩ := heighth
    obtain ⟨b,e,hquote,-,hb,hdec⟩ := h.decodeControl_quoteChar (a &&& 127)
    rw [low_low] at hquote hb
    have hlow : b &&& 0x7f = b := by
      obtain rfl | ⟨rfl,-⟩ := hb
      · exact (prefixable_low _ h.ctlq_prefixable).1
      · exact low_low a
    refine ⟨k.ebq,b :: e,by rw [hquote],(prefixable_low _ (h.ebq_prefixable hf).1).2.2,?_,?_⟩
    · rintro ⟨hr,he⟩
      exact h.apart hf hr he
    · intro rest
      rw [Prefixes.decodeEighth,if_pos ((h.ebq_char _).mpr ⟨hf,rfl⟩),List.cons_append,takeByte,
        ok_bind]
      dsimp only
      rw [hlow,hdec,ok_bind]
      dsimp only
      rw [low_eighth a hbit]
  · rename_i heighth
    obtain ⟨b,e,hquote,hz,hb,hdec⟩ := h.decodeControl_quoteChar a
    -- The byte in front is none of the other prefixes.
    have hother (q : UInt8) (f : Bool) (hq : f = true → prefixable q ∧ q ≠ k.s_ctlq)
        (hne : b = k.s_ctlq ∨ b = a ∧ ¬ (f = true ∧ a &&& 127 = q)) : ¬ (f = true ∧ b = q) := by
      rintro ⟨hf,rfl⟩
      obtain hc | ⟨ha,hn⟩ := hne
      · exact (hq hf).2 hc
      · exact hn ⟨hf,by rw [← ha]; exact (prefixable_low _ (hq hf).1).1⟩
    refine ⟨b,e,hquote,hz,hother _ _ h.rptq_prefixable (hb.imp_right fun hn => ⟨hn.1,hn.2.2⟩),?_⟩
    intro rest
    have he := hother _ _ h.ebq_prefixable (hb.imp_right fun hn => ⟨hn.1,hn.2.1⟩)
    rw [Prefixes.decodeEighth,if_neg (mt (h.ebq_char b).mp he),hdec]

theorem decodes_encodeChar (a : UInt8) : Decodes x (k.encodeChar a) [a] := by
  obtain ⟨b,e,henc,hz,hr,hdec⟩ := h.decodeEighth_encodeChar a
  rw [henc]
  refine (Decodes.one hz one_pos fun rest => ?_ : Decodes x (b :: e) (List.replicate 1 a))
  rw [Prefixes.decodeChar,if_neg (mt (h.rptq_char b).mp hr),hdec,ok_bind]

theorem decodes_repeated (a : UInt8) {n : Nat} (hn : 0 < n) (hlt : n < 224)
    (hf : k.rptflg = true) :
    Decodes x (k.rptq :: tochar n :: k.encodeChar a) (List.replicate n a) := by
  obtain ⟨b,e,henc,-,-,hdec⟩ := h.decodeEighth_encodeChar a
  rw [henc]
  apply Decodes.one (prefixable_low _ (h.rptq_prefixable hf).1).2.2 hn
  intro rest
  rw [Prefixes.decodeChar,if_pos ((h.rptq_char _).mpr ⟨hf,rfl⟩),List.cons_append,List.cons_append,
    takeByte,ok_bind]
  dsimp only
  rw [takeByte,ok_bind]
  dsimp only
  rw [hdec,ok_bind]
  dsimp only
  rw [xunchar_tochar hlt,if_neg (by omega)]

end Sender.Matches
-- Bytes that neither begin nor end a packet, with or without their parity bit.
def Printed (s : List UInt8) : Prop := ∀ b ∈ s, ¬ b &&& 127 < 32

namespace Printed

variable {s t : List UInt8} {b : UInt8}

theorem nil : Printed [] := by
  intro b hb
  exact absurd hb List.not_mem_nil

theorem cons (h : ¬ b &&& 127 < 32) (hs : Printed s) : Printed (b :: s) := by
  intro c hc
  obtain rfl | hc := List.mem_cons.mp hc
  · exact h
  · exact hs c hc

theorem append (hs : Printed s) (ht : Printed t) : Printed (s ++ t) := by
  intro c hc
  obtain hc | hc := List.mem_append.mp hc
  · exact hs c hc
  · exact ht c hc

theorem left (h : Printed (s ++ t)) : Printed s := fun c hc => h c (List.mem_append_left t hc)

theorem right (h : Printed (s ++ t)) : Printed t := fun c hc => h c (List.mem_append_right s hc)

theorem of_all (h : s.all (fun b => Nat.ble 32 (b &&& 127).toNat) = true) : Printed s := by
  intro b hb hlt
  have hle := Nat.le_of_ble_eq_true (List.all_eq_true.mp h b hb)
  exact absurd (UInt8.lt_iff_toNat_lt.mp hlt) (Nat.not_lt.mpr hle)

theorem no_nul (h : Printed s) : 0 ∉ s := fun hz => h 0 hz (by decide)

end Printed

theorem prefixable_printed (a : UInt8) (h : prefixable a = true) : ¬ a &&& 127 < 32 :=
  ((byte_table a).2.2.1 h).2.2.2

theorem ctl_printed (a : UInt8) (h : a &&& 127 < 32 ∨ a &&& 127 = 127) : ¬ ctl a &&& 127 < 32 :=
  ((byte_table a).1 h).2

theorem tochar_printed {n : Nat} (h : n < 95) : ¬ tochar n &&& 127 < 32 := by
  have hn : (tochar n).toNat = n + 32 := UInt8.toNat_ofNat_of_lt (by omega : n + 32 < 256)
  have hsp : (32 : UInt8).toNat = 32 := rfl
  rw [UInt8.lt_iff_toNat_lt,low_toNat,hn,hsp]
  omega

namespace Sender

variable {k k' : Sender} {x : Prefixes} {a : UInt8} {next : Option UInt8}

-- What encode adds for a run of `a`. All but the beginning is taken back if it is too much.
structure Emission (k : Sender) (x : Prefixes) (a : UInt8) (front back : List UInt8) : Prop where
  decodes : ∃ m n, m + n = k.s_rpt + 1 ∧ Decodes x front (List.replicate m a) ∧
    Decodes x back (List.replicate n a)
  printed : Printed (front ++ back)
  back_ne : back ≠ []
  length_le : front.length + back.length ≤ 6
  remains : k.ebqflg = false → back.length < REMAINL
  front_fits : front = [] ∨ (k.xdata.length + front.length : Int) ≤ k.s_maxlen - 4
  starts : front ≠ [] ∨ back.length ≤ 5 ∨ k.s_maxlen - 4 < k.xdata.length + 3

theorem quoteChar_length (k : Sender) (a7 a : UInt8) : (k.quoteChar a7 a).length ≤ 2 := by
  rw [quoteChar]
  split
  · rfl
  · split
    · rfl
    · exact one_le_two

theorem encodeChar_length (k : Sender) (a : UInt8) :
    (k.encodeChar a).length ≤ 3 ∧ (k.ebqflg = false → (k.encodeChar a).length ≤ 2) := by
  rw [encodeChar]
  split
  · rename_i h
    have hq := k.quoteChar_length (a &&& 127) (a &&& 127)
    rw [List.length_cons]
    refine ⟨by omega,fun hf => ?_⟩
    rw [hf] at h
    exact absurd h.1 Bool.false_ne_true
  · have hq := k.quoteChar_length (a &&& 127) a
    exact ⟨by omega,fun _ => hq⟩

theorem Matches.quoteChar_printed (h : k.Matches x) (a : UInt8) :
    Printed (k.quoteChar (a &&& 127) a) := by
  have hc := prefixable_printed _ h.ctlq_prefixable
  rw [quoteChar]
  split
  · rename_i hrange
    exact .cons hc (.cons (ctl_printed a hrange) .nil)
  · rename_i hrange
    have ha := (not_or.mp hrange).1
    split
    · exact .cons hc (.cons ha .nil)
    · exact .cons ha .nil

theorem Matches.encodeChar_printed (h : k.Matches x) (a : UInt8) : Printed (k.encodeChar a) := by
  rw [encodeChar]
  split
  · rename_i heighth
    have hq := h.quoteChar_printed (a &&& 127)
    rw [low_low] at hq
    exact .cons (prefixable_printed _ (h.ebq_prefixable heighth.1).1) hq
  · exact h.quoteChar_printed a

theorem Matches.emission_once (h : k.Matches x) (hrpt : k.s_rpt = 0) (a : UInt8) :
    k.Emission x a [] (k.encodeChar a) where
  decodes := ⟨0,1,by omega,.nil,h.decodes_encodeChar a⟩
  printed := h.encodeChar_printed a
  back_ne := by
    obtain ⟨b,e,henc,-⟩ := h.decodeEighth_encodeChar a
    rw [henc]
    exact List.cons_ne_nil b e
  length_le := by
    have hlen := (k.encodeChar_length a).1
    rw [List.length_nil]
    omega
  remains := fun hf => lt_of_le_of_lt ((k.encodeChar_length a).2 hf) (by decide)
  front_fits := .inl rfl
  starts := .inr (.inl (le_trans (k.encodeChar_length a).1 (by norm_num)))

theorem Matches.emission_counted (h : k.Matches x) (hf : k.rptflg = true) (hrpt : k.s_rpt < 94)
    (a : UInt8) : k.Emission x a [] (k.rptq :: tochar (k.s_rpt + 1) :: k.encodeChar a) where
  decodes := ⟨0,k.s_rpt + 1,by omega,.nil,h.decodes_repeated a (by omega) (by omega) hf⟩
  printed := .cons (prefixable_printed _ (h.rptq_prefixable hf).1)
    (.cons (tochar_printed (by omega)) (h.encodeChar_printed a))
  back_ne := List.cons_ne_nil _ _
  length_le := by
    have hlen := (k.encodeChar_length a).1
    simp only [List.length_nil,List.length_cons]
    omega
  remains := by
    intro hf
    have hlen := (k.encodeChar_length a).2 hf
    have hr : REMAINL = 6 := rfl
    simp only [List.length_cons]
    omega
  front_fits := .inl rfl
  starts := by
    have hlen := (k.encodeChar_length a).1
    simp only [List.length_cons]
    omega

theorem Matches.emission_pair (h : k.Matches x) (hrpt : k.s_rpt = 1) (a : UInt8)
    (hfits : (k.xdata.length + (k.encodeChar a).length : Int) ≤ k.s_maxlen - 4) :
    k.Emission x a (k.encodeChar a) (k.encodeChar a) where
  decodes := ⟨1,1,by omega,h.decodes_encodeChar a,h.decodes_encodeChar a⟩
  printed := .append (h.encodeChar_printed a) (h.encodeChar_printed a)
  back_ne := by
    obtain ⟨b,e,henc,-⟩ := h.decodeEighth_encodeChar a
    rw [henc]
    exact List.cons_ne_nil b e
  length_le := by
    have hlen := (k.encodeChar_length a).1
    omega
  remains := fun hf => lt_of_le_of_lt ((k.encodeChar_length a).2 hf) (by decide)
  front_fits := .inr hfits
  starts := .inr (.inl (le_trans (k.encodeChar_length a).1 (by norm_num)))

-- The second of a pair goes with the first if the first is too much already.
theorem Matches.emission_late (h : k.Matches x) (hrpt : k.s_rpt = 1) (a : UInt8)
    (hfull : k.s_maxlen - 4 < (k.xdata.length + (k.encodeChar a).length : Int)) :
    k.Emission x a [] (k.encodeChar a ++ k.encodeChar a) where
  decodes := ⟨0,2,by omega,.nil,(h.decodes_encodeChar a).append (h.decodes_encodeChar a)⟩
  printed := .append .nil (.append (h.encodeChar_printed a) (h.encodeChar_printed a))
  back_ne := by
    obtain ⟨b,e,henc,-⟩ := h.decodeEighth_encodeChar a
    rw [henc]
    exact List.cons_ne_nil b _
  length_le := by
    have hlen := (k.encodeChar_length a).1
    rw [List.length_nil,List.length_append]
    omega
  remains := by
    intro hf
    have hlen := (k.encodeChar_length a).2 hf
    have hr : REMAINL = 6 := rfl
    rw [List.length_append]
    omega
  front_fits := .inl rfl
  starts := by
    have hlen := (k.encodeChar_length a).1
    omega

-- encode counts a character that comes again, or puts the run of it into the packet.
theorem Matches.encode_cases (h : k.Matches x) (hrpt : k.s_rpt < 94)
    (hoff : k.rptflg = false → k.s_rpt = 0) (hos : k.osize = k.xdata.length) (a : UInt8)
    (next : Option UInt8) :
    (next = some a ∧ k.rptflg = true ∧ k.s_rpt + 1 < 94 ∧
      k.encode a next = { k with s_rpt := k.s_rpt + 1 }) ∨
    ∃ front back, k.Emission x a front back ∧ k.encode a next = { k with
      s_rpt := 0
      xdata := k.xdata ++ front ++ back
      osize := k.xdata.length + front.length } := by
  have honce (hz : k.s_rpt = 0) : ∃ front back, k.Emission x a front back ∧
      k.emit (k.encodeChar a) = { k with
        s_rpt := 0
        xdata := k.xdata ++ front ++ back
        osize := k.xdata.length + front.length } := by
    refine ⟨[],k.encodeChar a,h.emission_once hz a,?_⟩
    rw [emit,List.append_nil,List.length_nil,Nat.add_zero,← hos,← hz]
  have hcounted (hf : k.rptflg = true) : ∃ front back, k.Emission x a front back ∧
      ({ k with s_rpt := 0 }.emit [k.rptq,tochar (k.s_rpt + 1)]).emit (k.encodeChar a) =
        { k with
          s_rpt := 0
          xdata := k.xdata ++ front ++ back
          osize := k.xdata.length + front.length } := by
    refine ⟨[],_,h.emission_counted hf hrpt a,?_⟩
    rw [emit,emit,List.append_nil,List.length_nil,Nat.add_zero,← hos,List.append_assoc]
    rfl
  rw [encode]
  split
  · rename_i hf
    split
    · rename_i hnext
      dsimp only
      split
      · rename_i hlt
        exact .inl ⟨hnext,hf,hlt,rfl⟩
      · right
        have hmax : k.s_rpt + 1 = 94 := by omega
        rw [if_pos hmax]
        exact hcounted hf
    · right
      split
      · rename_i hone
        dsimp only [emit]
        split
        · rename_i hfits
          rw [List.length_append] at hfits
          refine ⟨_,_,h.emission_pair hone a (by push_cast at hfits; exact hfits),?_⟩
          rw [List.length_append]
          rfl
        · rename_i hfull
          rw [List.length_append] at hfull
          refine ⟨[],_,h.emission_late hone a (by push_cast at hfull; omega),?_⟩
          rw [List.append_nil,List.length_nil,Nat.add_zero,← hos,List.append_assoc]
          rfl
      · split
        · exact hcounted hf
        · exact honce (by omega)
  · rename_i hf
    exact .inr (honce (hoff (by simpa using hf)))

end Sender
end Kermit
end RoscoM68k
