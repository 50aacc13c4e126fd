import Mathlib.Order.Nat
import Rxvm.Strb

/-!
# Rxvm.StrbSpec — the string builder holds what has been added

`Strb.Holds` is the invariant of a builder: the buffer has room for `space`
characters, and begins with the characters that have been added. Room is made
for every size: the blocks that are added are at least what is missing, and at
most what is missing and one block.
-/

namespace Rxvm

/-- The decimal representation of a number. -/
def decimal (n : Nat) : List CChar := (Nat.toDigits 10 n).map chr

/-- What a call adds. -/
def StrbOp.chars : StrbOp → List CChar
  | .addc c => [c]
  | .adds s n => s.take n
  | .addu i => decimal i.toNat

/-- `strb_adds` is given at least `n` characters, and no NUL among them. -/
def StrbOp.Proper : StrbOp → Prop
  | .adds s n => n ≤ s.length ∧ NoNul (s.take n)
  | _ => True

/-- The builder holds the characters that have been added. -/
structure Strb.Holds (cfg : Strb) (chars : List CChar) : Prop where
  size : cfg.size = chars.length
  le : cfg.size ≤ cfg.space
  room : cfg.buf.length = cfg.space
  data : cfg.buf.take cfg.size = chars.map some
  block : 0 < cfg.blockSize.toNat
  blockLe : cfg.blockSize.toNat ≤ cfg.space
  spaceLt : cfg.space < 4294967296

section

variable {alloc : Nat → Bool} {cfg : Strb} {chars : List CChar}

/-! ## Arithmetic -/

theorem u64_eq {z : Int} {n : Nat} (h : z = n) (hn : n < 18446744073709551616) : u64 z = n := by
  subst h
  simp only [u64]
  omega

/-! ## Cells -/

theorem Cells.write_eq {cells : Cells} {k : Nat} (h : k < cells.length) (c : CChar) :
    cells.write k c = some (cells.set k (some c)) := by
  unfold Cells.write
  rw [if_pos ⟨Int.natCast_nonneg k, by exact_mod_cast h⟩, Int.toNat_natCast]

theorem Cells.read_of_drop {cells rest : Cells} {i : Nat} {c : CChar}
    (h : cells.drop i = some c :: rest) : cells.read i = some c := by
  have hget : cells[i]? = some (some c) := by
    rw [← List.head?_drop, h, List.head?_cons]
  rw [Cells.read, hget]
  rfl

/-! ## Making room -/

/-- Growing by `k` blocks, where the sizes fit. -/
theorem enlargeBuf_eq (k : Nat) (hsize : cfg.blockSize.toNat * k < 2147483648)
    (hspace : cfg.space < 4294967296) :
    enlargeBuf alloc cfg k =
      if alloc (cfg.space + cfg.blockSize.toNat * k) then
        (none, { cfg with
          space := cfg.space + cfg.blockSize.toNat * k
          buf := cfg.buf.resize (cfg.space + cfg.blockSize.toNat * k) })
      else (some .emem, cfg) := by
  have hmul : u32 ((cfg.blockSize.toNat : Int) * k) = cfg.blockSize.toNat * k :=
    u32_eq (by push_cast; rfl) (by omega)
  have hint : i32 ((cfg.blockSize.toNat * k : Nat) : Int) = (cfg.blockSize.toNat * k : Nat) :=
    i32_eq (by omega) (by omega)
  have hsum : u64 ((cfg.space : Int) + ((cfg.blockSize.toNat * k : Nat) : Int)) =
      cfg.space + cfg.blockSize.toNat * k := u64_eq (by push_cast; rfl) (by omega)
  unfold enlargeBuf
  simp only [hmul, hint, hsum]

theorem Cells.resize_length {cells : Cells} {n : Nat} (h : cells.length ≤ n) :
    (cells.resize n).length = n := by
  simp only [Cells.resize, Cells.fresh, List.length_append, List.length_take,
    List.length_replicate]
  omega

theorem Cells.take_resize {cells : Cells} {k n : Nat} (hk : k ≤ cells.length)
    (h : cells.length ≤ n) : (cells.resize n).take k = cells.take k := by
  unfold Cells.resize
  rw [List.take_of_length_le h, List.take_append_of_le_length hk]

/-- A larger buffer holds the same characters. -/
theorem Strb.Holds.grow (h : cfg.Holds chars) {space : Nat} (hle : cfg.space ≤ space)
    (hlt : space < 4294967296) :
    Strb.Holds { cfg with space := space, buf := cfg.buf.resize space } chars where
  size := h.size
  le := h.le.trans hle
  room := Cells.resize_length (h.room.le.trans hle)
  data := by
    show (cfg.buf.resize space).take cfg.size = _
    rw [Cells.take_resize (h.le.trans h.room.ge) (h.room.le.trans hle)]
    exact h.data
  block := h.block
  blockLe := h.blockLe.trans hle
  spaceLt := hlt

/-- The builder behind an attempt to make room for `n` more characters. -/
def Grown (alloc : Nat → Bool) (cfg : Strb) (chars : List CChar) (n : Nat)
    (r : Option Err × Strb) : Prop :=
  (r = (some .emem, cfg) ∧ ∃ m, alloc m = false) ∨
    ∃ cfg', r = (none, cfg') ∧ cfg'.Holds chars ∧ chars.length + n ≤ cfg'.space

/-- Room is made by enough blocks. -/
theorem Strb.Holds.enlarge (h : cfg.Holds chars) {n k : Nat}
    (hsize : cfg.blockSize.toNat * k < 2147483648)
    (hroom : chars.length + n ≤ cfg.space + cfg.blockSize.toNat * k)
    (hlt : cfg.space < 2147483648) : Grown alloc cfg chars n (enlargeBuf alloc cfg k) := by
  rw [enlargeBuf_eq k hsize h.spaceLt]
  by_cases halloc : alloc (cfg.space + cfg.blockSize.toNat * k) = true
  · rw [if_pos halloc]
    exact Or.inr ⟨_, rfl, h.grow (Nat.le_add_right _ _) (by omega), hroom⟩
  · rw [if_neg halloc]
    exact Or.inl ⟨rfl, _, by simpa using halloc⟩

/-- `strb_addc` makes room for one character. -/
theorem Strb.Holds.room_addc (h : cfg.Holds chars) (hlt : chars.length + 1 < 2147483648) :
    Grown alloc cfg chars 1
      (if u64 (cfg.size + 1) > cfg.space then enlargeBuf alloc cfg 1 else (none, cfg)) := by
  have hsize := h.size
  have hfill := h.le
  have hblock := h.block
  have hle := h.blockLe
  rw [@u64_eq _ (cfg.size + 1) (by push_cast; rfl) (by omega)]
  by_cases hfull : cfg.size + 1 > cfg.space
  · rw [if_pos hfull]
    exact @Strb.Holds.enlarge alloc cfg chars h 1 1 (by omega) (by omega) (by omega)
  · rw [if_neg hfull]
    exact Or.inr ⟨cfg, rfl, h, by omega⟩

/-- `strb_adds` makes room for `n` characters: the division leaves less than a
block, and one block more is added. -/
theorem Strb.Holds.room_adds (h : cfg.Holds chars) {n : Nat}
    (hlt : chars.length + n < 2147483648) :
    Grown alloc cfg chars n
      (if u64 (cfg.size + (n : Int)) > cfg.space then
        enlargeBuf alloc cfg (i32 (u64 ((u64 (cfg.size + (n : Int)) : Int) - cfg.space) /
          cfg.blockSize.toNat + 1 : Nat))
      else (none, cfg)) := by
  have hsize := h.size
  have hblock := h.block
  have hle := h.blockLe
  rw [@u64_eq _ (cfg.size + n) (by push_cast; rfl) (by omega)]
  by_cases hfull : cfg.size + n > cfg.space
  swap
  · rw [if_neg hfull]
    exact Or.inr ⟨cfg, rfl, h, by omega⟩
  rw [if_pos hfull]
  have hmissing : u64 (((cfg.size + n : Nat) : Int) - cfg.space) = cfg.size + n - cfg.space :=
    u64_eq (by omega) (by omega)
  rw [hmissing]
  -- what the blocks cover
  have hcover := Nat.lt_mul_div_succ (cfg.size + n - cfg.space) hblock
  have hmul := Nat.mul_div_le (cfg.size + n - cfg.space) cfg.blockSize.toNat
  have hquot := Nat.div_le_self (cfg.size + n - cfg.space) cfg.blockSize.toNat
  have hsucc : cfg.blockSize.toNat * ((cfg.size + n - cfg.space) / cfg.blockSize.toNat + 1) =
      cfg.blockSize.toNat * ((cfg.size + n - cfg.space) / cfg.blockSize.toNat) +
        cfg.blockSize.toNat := Nat.mul_succ _ _
  generalize (cfg.size + n - cfg.space) / cfg.blockSize.toNat = quot at hcover hmul hquot hsucc ⊢
  rw [i32_eq (by omega) (by omega)]
  exact h.enlarge (by omega) (by omega) (by omega)

/-! ## Adding characters -/

/-- One character is written behind those that are there. -/
theorem Strb.Holds.push (h : cfg.Holds chars) (hroom : chars.length < cfg.space)
    (hlt : chars.length + 1 < 2147483648) (c : CChar) :
    ∃ buf, cfg.buf.write cfg.size c = some buf ∧
      Strb.Holds { cfg with buf := buf, size := u64 (cfg.size + 1) } (chars ++ [c]) ∧
      buf.length = cfg.buf.length := by
  have hsize := h.size
  have hbuf := h.room
  have hin : cfg.size < cfg.buf.length := by omega
  have hnext : u64 ((cfg.size : Int) + 1) = cfg.size + 1 := u64_eq (by push_cast; rfl) (by omega)
  refine ⟨cfg.buf.set cfg.size (some c), Cells.write_eq hin c, ?_, List.length_set⟩
  rw [hnext]
  constructor
  · simp [hsize]
  · show cfg.size + 1 ≤ cfg.space
    omega
  · show (cfg.buf.set cfg.size (some c)).length = cfg.space
    rw [List.length_set, hbuf]
  · show (cfg.buf.set cfg.size (some c)).take (cfg.size + 1) = _
    rw [List.take_succ_eq_append_getElem (by rw [List.length_set]; exact hin), List.take_set,
      List.set_eq_of_length_le (by rw [List.length_take]; omega), List.getElem_set_self, h.data,
      List.map_append]
    rfl
  · exact h.block
  · exact h.blockLe
  · exact h.spaceLt

/-- The loop of `strb_adds` adds what the string goes on with. -/
theorem strbAddsLoop_adds {s rest : Cells} : ∀ {added : List CChar} {i : Nat} {cfg : Strb}
    {chars : List CChar}, cfg.Holds chars → s.drop i = added.map some ++ rest → NoNul added →
    chars.length + added.length ≤ cfg.space → chars.length + added.length < 2147483648 →
    ∃ cfg', strbAddsLoop s added.length i cfg = some cfg' ∧ cfg'.Holds (chars ++ added) := by
  intro added
  -- by induction on the characters that are left to add
  induction added with
  | nil =>
      intro i cfg chars h _ _ _ _
      refine ⟨cfg, rfl, ?_⟩
      rw [List.append_nil]
      exact h
  | cons c added ih =>
      intro i cfg chars h hdrop hnul hroom hlt
      rw [List.length_cons] at hroom hlt
      rw [List.map_cons, List.cons_append] at hdrop
      have hread := Cells.read_of_drop hdrop
      have hc : c ≠ 0 := hnul c List.mem_cons_self
      rcases h.push (by omega) (by omega) c with ⟨buf, hwrite, hpush, hlen⟩
      have hdrop' : s.drop (i + 1) = added.map some ++ rest := by
        rw [← List.drop_drop, hdrop]
        rfl
      rcases ih hpush hdrop' (fun x hx => hnul x (List.mem_cons_of_mem c hx))
        (by rw [List.length_append, List.length_singleton]; show _ ≤ cfg.space; omega)
        (by rw [List.length_append, List.length_singleton]; omega) with ⟨cfg', hrun, hholds⟩
      refine ⟨cfg', ?_, ?_⟩
      · show strbAddsLoop s (added.length + 1) i cfg = some cfg'
        rw [strbAddsLoop, hread]
        show (if c = 0 then some cfg else _) = some cfg'
        rw [if_neg hc, hwrite]
        exact hrun
      · rw [List.append_assoc] at hholds
        exact hholds

/-- What a call does: it adds its characters, or fails and leaves the builder
as it was; it fails only when an allocation does. -/
def Adds (alloc : Nat → Bool) (cfg : Strb) (chars added : List CChar) (run : Built) : Prop :=
  (run = some (some .emem, cfg) ∧ ∃ m, alloc m = false) ∨
    ∃ cfg', run = some (none, cfg') ∧ cfg'.Holds (chars ++ added)

theorem Strb.Holds.addc (h : cfg.Holds chars) (c : CChar) (hlt : chars.length + 1 < 2147483648) :
    Adds alloc cfg chars [c] (strbAddc alloc cfg c) := by
  unfold strbAddc
  rcases @Strb.Holds.room_addc alloc cfg chars h hlt with ⟨hr, hfail⟩ | ⟨cfg', hr, hholds, hroom⟩
  · rw [hr]
    exact Or.inl ⟨rfl, hfail⟩
  · rw [hr]
    rcases hholds.push (by omega) hlt c with ⟨buf, hwrite, hpush, _⟩
    refine Or.inr ⟨_, ?_, hpush⟩
    simp only [hwrite]
    rfl

theorem Strb.Holds.adds (h : cfg.Holds chars) {s rest : Cells} {added : List CChar}
    (hs : s = added.map some ++ rest) (hnul : NoNul added)
    (hlt : chars.length + added.length < 2147483648) :
    Adds alloc cfg chars added (strbAdds alloc cfg s added.length) := by
  unfold strbAdds
  simp only
  rcases @Strb.Holds.room_adds alloc cfg chars h added.length hlt with
    ⟨hr, hfail⟩ | ⟨cfg', hr, hholds, hroom⟩
  · rw [hr]
    exact Or.inl ⟨rfl, hfail⟩
  · rw [hr]
    rcases strbAddsLoop_adds hholds (i := 0) hs hnul hroom hlt with ⟨cfg₁, hrun, hadded⟩
    refine Or.inr ⟨cfg₁, ?_, hadded⟩
    simp only [Int.toNat_natCast, hrun]
    rfl

/-! ## Numbers -/

theorem chr_digitChar {d : Nat} (h : d < 10) :
    chr (Nat.digitChar d) = Int8.ofNat (d + (chr '0').toInt.toNat) := by
  revert d
  decide

/-- The last digit comes first. -/
theorem decimal_eq (n : Nat) : decimal n =
    (if n < 10 then [] else decimal (n / 10)) ++ [Int8.ofNat (n % 10 + (chr '0').toInt.toNat)] := by
  unfold decimal
  rw [Nat.toDigits_eq_if (by omega)]
  by_cases hlt : n < 10
  · rw [if_pos hlt, if_pos hlt, Nat.mod_eq_of_lt hlt, List.map_singleton, chr_digitChar hlt]
    rfl
  · rw [if_neg hlt, if_neg hlt, List.map_append, List.map_singleton,
      chr_digitChar (Nat.mod_lt n (by omega))]

theorem decimal_pos (n : Nat) : 0 < (decimal n).length := by
  rw [decimal_eq, List.length_append, List.length_singleton]
  omega

/-- An `unsigned int` has at most ten digits. -/
theorem decimal_length_le {n : Nat} (h : n < 4294967296) : (decimal n).length ≤ 10 := by
  unfold decimal
  rw [List.length_map, Nat.length_toDigits_le_iff (by omega) (by omega)]
  omega

theorem noNul_decimal (n : Nat) : NoNul (decimal n) := by
  have hdigit : ∀ d < 10, Int8.ofNat (d + (chr '0').toInt.toNat) ≠ 0 := by decide
  induction n using Nat.strong_induction_on with
  | _ n ih =>
      intro c hc
      rw [decimal_eq] at hc
      rcases List.mem_append.mp hc with hfront | hlast
      · by_cases hlt : n < 10
        · rw [if_pos hlt] at hfront
          cases hfront
        · rw [if_neg hlt] at hfront
          exact ih (n / 10) (by omega) c hfront
      · rw [List.mem_singleton.mp hlast]
        exact hdigit _ (Nat.mod_lt n (by omega))

/-- The first loop of `my_utoa` counts the digits. -/
theorem utoaChars_eq : ∀ {rounds n : Nat}, 0 < n → n ≤ rounds →
    utoaChars rounds n = (decimal n).length := by
  intro rounds
  induction rounds with
  | zero =>
      intro n hpos hle
      omega
  | succ rounds ih =>
      intro n hpos hle
      rw [utoaChars, if_pos hpos, decimal_eq, List.length_append, List.length_singleton]
      by_cases hlt : n < 10
      · -- nothing is left
        have hzero : n / 10 = 0 := Nat.div_eq_of_lt hlt
        rw [if_pos hlt, hzero]
        cases rounds <;> rfl
      · rw [if_neg hlt, ih (by omega) (by omega)]

/-- The second loop writes them, from the last one on. -/
theorem utoaFill_eq : ∀ {rounds n : Nat} {buf : Cells}, 0 < n → n ≤ rounds →
    (decimal n).length ≤ buf.length →
    utoaFill rounds n (((decimal n).length : Int) - 1) buf =
      some ((decimal n).map some ++ buf.drop (decimal n).length) := by
  intro rounds
  -- by induction on the digits, from the last one to the first
  induction rounds with
  | zero =>
      intro n buf hpos hle
      omega
  | succ rounds ih =>
      intro n buf hpos hle hroom
      have hdec := decimal_eq n
      generalize hlast : Int8.ofNat (n % 10 + (chr '0').toInt.toNat) = last at hdec
      generalize hfront : (if n < 10 then [] else decimal (n / 10)) = front at hdec
      rw [hdec, List.length_append, List.length_singleton] at hroom ⊢
      have hpos' : ((front.length + 1 : Nat) : Int) - 1 = front.length := by omega
      have hdrop : Cells.write buf front.length last = some (buf.set front.length (some last)) ∧
          (buf.set front.length (some last)).drop front.length =
            some last :: buf.drop (front.length + 1) := by
        refine ⟨Cells.write_eq (by omega) last, ?_⟩
        rw [List.drop_set, if_neg (by omega), Nat.sub_self, List.drop_eq_getElem_cons (by omega)]
        rfl
      rw [utoaFill, if_pos hpos, hpos', hlast, hdrop.1]
      show utoaFill rounds (n / 10) ((front.length : Int) - 1) _ = _
      rw [List.map_append, List.append_assoc]
      show _ = some (front.map some ++ some last :: buf.drop (front.length + 1))
      rw [← hdrop.2]
      -- the first digit: the next round is the last
      by_cases hlt : n < 10
      · rw [if_pos hlt] at hfront
        subst hfront
        rw [Nat.div_eq_of_lt hlt]
        cases rounds <;> rfl
      · rw [if_neg hlt] at hfront
        subst hfront
        exact ih (by omega) (by omega) (by rw [List.length_set]; omega)

/-- `my_utoa` writes the decimal representation and a NUL, where there is
room. -/
theorem myUtoa_eq {n : Nat} {size : Nat} (hn : n < 4294967296) (hsize : 11 ≤ size) :
    ∃ rest, myUtoa n (Cells.fresh size) size =
      some (((decimal n).length : Int), (decimal n).map some ++ rest) := by
  have hfresh : (Cells.fresh size).length = size := List.length_replicate
  unfold myUtoa
  by_cases hzero : n = 0
  · -- the special case
    subst hzero
    have h0 : utoaChars 0 0 = 0 := rfl
    have hwrite : (Cells.fresh size).write 0 (chr '0') =
        some ((Cells.fresh size).set 0 (some (chr '0'))) := @Cells.write_eq _ 0 (by omega) _
    have hwrite' : Cells.write ((Cells.fresh size).set 0 (some (chr '0'))) 1 0 =
        some (((Cells.fresh size).set 0 (some (chr '0'))).set 1 (some 0)) :=
      @Cells.write_eq _ 1 (by rw [List.length_set]; omega) _
    have hdec : decimal 0 = [chr '0'] := by decide
    obtain ⟨m, rfl⟩ : ∃ m, size = m + 1 := ⟨size - 1, by omega⟩
    refine ⟨((Cells.fresh m).set 0 (some 0)), ?_⟩
    simp only [h0]
    rw [if_neg (by omega)]
    show ((Cells.fresh (m + 1)).write 0 (chr '0') >>= _) = _
    rw [hwrite]
    show (Cells.write ((Cells.fresh (m + 1)).set 0 (some (chr '0'))) 1 0 >>= _) = _
    rw [hwrite', hdec]
    rfl
  · have hpos := Nat.pos_of_ne_zero hzero
    have hle := decimal_length_le hn
    have hlen := decimal_pos n
    simp only [utoaChars_eq hpos le_rfl]
    rw [if_neg (by omega), if_neg (by omega), Cells.write_eq (by omega)]
    have hfill := @utoaFill_eq n n ((Cells.fresh size).set (decimal n).length (some 0)) hpos le_rfl
      (by rw [List.length_set]; omega)
    exact ⟨_, by
      show (utoaFill n n _ _ >>= _) = _
      rw [hfill]
      rfl⟩

/-- `strb_addu` adds the decimal representation. -/
theorem Strb.Holds.addu (h : cfg.Holds chars) (i : UInt32)
    (hlt : chars.length + (decimal i.toNat).length < 2147483648) :
    Adds alloc cfg chars (decimal i.toNat) (strbAddu alloc cfg i) := by
  rcases @myUtoa_eq i.toNat numSize i.toNat_lt (by decide) with ⟨rest, hnum⟩
  have hadds := @Strb.Holds.adds alloc cfg chars h _ rest _ rfl (noNul_decimal i.toNat) hlt
  unfold strbAddu
  rw [hnum]
  exact hadds

/-! ## Sequences of calls -/

/-- One call. -/
theorem Strb.Holds.op (h : cfg.Holds chars) {op : StrbOp} (hop : op.Proper)
    (hlt : chars.length + op.chars.length < 2147483648) :
    Adds alloc cfg chars op.chars (op.run alloc cfg) := by
  cases op with
  | addc c => exact h.addc c hlt
  | adds s n =>
      rcases hop with ⟨hn, hnul⟩
      have hs : s.map some = (s.take n).map some ++ (s.drop n).map some := by
        rw [← List.map_append, List.take_append_drop]
      have hadds := @Strb.Holds.adds alloc cfg chars h _ _ _ hs hnul hlt
      rw [List.length_take, Nat.min_eq_left hn] at hadds
      exact hadds
  | addu i => exact h.addu i hlt

/-- A sequence of calls ends with all their characters, or at an allocation
that has failed. -/
theorem strbRun_holds : ∀ {ops : List StrbOp} {cfg : Strb} {chars : List CChar},
    cfg.Holds chars → (∀ op ∈ ops, op.Proper) →
    (chars ++ ops.flatMap StrbOp.chars).length < 2147483648 →
    (∃ cfg' done, strbRun alloc ops cfg = some (some .emem, cfg') ∧ (∃ m, alloc m = false) ∧
      done <+: ops ∧ cfg'.Holds (chars ++ done.flatMap StrbOp.chars)) ∨
    ∃ cfg', strbRun alloc ops cfg = some (none, cfg') ∧
      cfg'.Holds (chars ++ ops.flatMap StrbOp.chars) := by
  intro ops
  -- by induction on the calls; the first one that gets no memory ends the run
  induction ops with
  | nil =>
      intro cfg chars h _ _
      refine Or.inr ⟨cfg, rfl, ?_⟩
      simpa using h
  | cons op ops ih =>
      intro cfg chars h hproper hlt
      rw [List.flatMap_cons, ← List.append_assoc] at hlt ⊢
      have hlt' : chars.length + op.chars.length < 2147483648 := by
        simp only [List.length_append] at hlt
        omega
      rcases h.op (hproper op List.mem_cons_self) hlt' with ⟨hrun, hfail⟩ | ⟨cfg₁, hrun, hholds⟩
      · refine Or.inl ⟨cfg, [], ?_, hfail, List.nil_prefix, by simpa using h⟩
        rw [strbRun, hrun]
        rfl
      · have hstep : strbRun alloc (op :: ops) cfg = strbRun alloc ops cfg₁ := by
          rw [strbRun, hrun]
          rfl
        rw [hstep]
        rcases ih hholds (fun o ho => hproper o (List.mem_cons_of_mem op ho)) hlt with
          ⟨cfg', done, hrest, hfail, hdone, hholds'⟩ | ⟨cfg', hrest, hholds'⟩
        · refine Or.inl ⟨cfg', op :: done, hrest, hfail, ?_, ?_⟩
          · exact List.cons_prefix_cons.mpr ⟨rfl, hdone⟩
          · rw [List.flatMap_cons, ← List.append_assoc]
            exact hholds'
        · exact Or.inr ⟨cfg', hrest, hholds'⟩

/-- A new builder holds nothing. -/
theorem strbInit_holds (blockSize : UInt32) :
    (∃ cfg, strbInit alloc blockSize = (some .emem, cfg) ∧ ∃ m, alloc m = false) ∨
      ∃ cfg, strbInit alloc blockSize = (none, cfg) ∧ cfg.Holds [] := by
  unfold strbInit
  generalize hsize : (if blockSize ≠ 0 then blockSize else defaultBlockSize) = size
  have hpos : 0 < size.toNat := by
    rw [← hsize]
    split_ifs with hzero
    · exact Nat.pos_of_ne_zero fun e => hzero (UInt32.toNat_inj.mp e)
    · decide
  -- the first block
  by_cases halloc : alloc size.toNat = true
  · simp only [if_pos halloc]
    refine Or.inr ⟨_, rfl, ?_⟩
    constructor
    · rfl
    · exact Nat.zero_le _
    · exact List.length_replicate
    · rfl
    · exact hpos
    · exact le_rfl
    · exact size.toNat_lt
  · simp only [if_neg halloc]
    exact Or.inl ⟨_, rfl, _, by simpa using halloc⟩

/-- After every call of a sequence, with allocations that succeed, nothing has
been written outside the buffer, and it begins with exactly what has been added,
in order. -/
theorem string_builder_exact (blockSize : UInt32) (ops : List StrbOp)
    (halloc : ∀ n, alloc n = true) (hproper : ∀ op ∈ ops, op.Proper)
    (hlt : (ops.flatMap StrbOp.chars).length < 2147483648) :
    ∃ cfg, strbInit alloc blockSize = (none, cfg) ∧
      ∀ done, done <+: ops → ∃ cfg', strbRun alloc done cfg = some (none, cfg') ∧
        cfg'.size ≤ cfg'.space ∧ cfg'.buf.length = cfg'.space ∧
        cfg'.size = (done.flatMap StrbOp.chars).length ∧
        cfg'.buf.take cfg'.size = (done.flatMap StrbOp.chars).map some := by
  rcases @strbInit_holds alloc blockSize with ⟨_, _, m, hm⟩ | ⟨cfg, hinit, hnew⟩
  · rw [halloc m] at hm
    cases hm
  refine ⟨cfg, hinit, ?_⟩
  rintro done ⟨rest, rfl⟩
  have hlt' : ([] ++ done.flatMap StrbOp.chars).length < 2147483648 := by
    rw [List.flatMap_append, List.length_append] at hlt
    rw [List.nil_append]
    omega
  rcases @strbRun_holds alloc done cfg [] hnew
    (fun op hop => hproper op (List.mem_append_left _ hop)) hlt' with
    ⟨_, _, _, ⟨m, hm⟩, _, _⟩ | ⟨cfg', hrun, hholds⟩
  · rw [halloc m] at hm
    cases hm
  · exact ⟨cfg', hrun, hholds.le, hholds.room, hholds.size, hholds.data⟩

end

theorem string_builder_grows : ∃ cfg, strbInit (fun _ => true) 1 = (none, cfg) ∧
    ∀ done, done <+: [.addc 97, .adds [98, 99, 100] 2, .addu 4294967295] →
      ∃ cfg', strbRun (fun _ => true) done cfg = some (none, cfg') ∧
        cfg'.size ≤ cfg'.space ∧ cfg'.buf.length = cfg'.space ∧
        cfg'.size = (done.flatMap StrbOp.chars).length ∧
        cfg'.buf.take cfg'.size = (done.flatMap StrbOp.chars).map some :=
  string_builder_exact 1 [.addc 97, .adds [98, 99, 100] 2, .addu 4294967295] (fun _ => rfl)
    (by simp [StrbOp.Proper, NoNul]) (by decide)

end Rxvm
