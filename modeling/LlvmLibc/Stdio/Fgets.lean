import Mathlib.Data.List.Basic

/-! `fgets` over a `File` (`src/stdio/fgets.cpp`).

The read loop stores one byte per iteration until `count - 1` bytes are stored, a newline has been
stored, or a read returns no byte. After the loop `fgets` consults the stream's error and
end-of-file flags, which are sticky: a flag that was set before the call counts as well as one that
a read of this call set. So `fgets` returns a null pointer exactly when the error flag is set, or
when no byte was stored and the end-of-file flag is set, from this call or an earlier one. -/

namespace LlvmLibc.Stdio

/-- The state of a `File` that `fgets` reads: the bytes still to come and the sticky end-of-file and
    error flags. -/
structure File where
  rest : List UInt8
  eof : Bool
  err : Bool
deriving DecidableEq, Repr

/-- Modelled from the spec: `File::read_unlocked` is not part of the sources. A read of one byte
    delivers the next byte of the stream; once the stream is exhausted it delivers none and sets the
    end-of-file flag. Reads never fail. -/
def File.readUnlocked (f : File) : Option UInt8 × File :=
  match f.rest with
  | b :: bs => (some b, { f with rest := bs })
  | [] => (none, { f with eof := true })

/-- What one call of `fgets` does: the writes to `str` in order, the stream afterwards, and whether
    it returns `str` (`true`) or a null pointer (`false`). -/
structure FgetsResult where
  writes : List (Nat × UInt8)
  stream : File
  returnsStr : Bool
deriving DecidableEq, Repr

/-- The loop `for (; i < (count - 1) && c != '\n'; ++i)` with at most `n` iterations left, from index
    `i` and last byte `c`: the final `i`, the stream and the writes, in order. -/
def readLoop : Nat → Nat → UInt8 → File → List (Nat × UInt8) → Nat × File × List (Nat × UInt8)
  | 0, i, _, f, ws => (i, f, ws)
  | n + 1, i, c, f, ws =>
    if c = 10 then (i, f, ws)
    else match f.readUnlocked with
      | (some c', f') => readLoop n (i + 1) c' f' (ws ++ [(i, c')])
      | (none, f') => (i, f', ws)

/-- `fgets(str, count, stream)`. -/
def fgets (count : Int) (stream : File) : FgetsResult :=
  if count < 1 then ⟨[], stream, false⟩
  else
    let (i, f, ws) := readLoop (count - 1).toNat 0 0 stream []
    let has_error := f.err
    let has_eof := f.eof
    if has_error || (i == 0 && has_eof) then ⟨ws, f, false⟩
    else ⟨ws ++ [(i, 0)], f, true⟩

/-! ### The read loop -/

/-- The number of bytes the loop stores from `s` with `n` iterations: up to `n`, and up to and
    including the first newline. -/
def lineLen (n : Nat) (s : List UInt8) : Nat := min n (min s.length (s.findIdx (· == 10) + 1))

@[simp] theorem lineLen_zero (s : List UInt8) : lineLen 0 s = 0 := by simp [lineLen]

@[simp] theorem lineLen_nil (n : Nat) : lineLen n [] = 0 := by simp [lineLen]

theorem lineLen_cons (n : Nat) (b : UInt8) (bs : List UInt8) :
    lineLen (n + 1) (b :: bs) = if b = 10 then 1 else lineLen n bs + 1 := by
  by_cases hb : b = 10
  · simp [lineLen, List.findIdx_cons, hb]
  · simp only [lineLen, List.findIdx_cons, beq_eq_false_iff_ne.mpr hb, cond_false, if_neg hb,
      List.length_cons]
    omega

/-- A read loop that starts after a newline stores nothing. -/
theorem readLoop_newline (n i : Nat) (f : File) (ws : List (Nat × UInt8)) :
    readLoop n i 10 f ws = (i, f, ws) := by
  cases n <;> simp [readLoop]

/-- The loop, started after a byte other than a newline, stores `lineLen n` bytes at consecutive
    indices, drops them from the stream, and sets the end-of-file flag exactly when a read found the
    stream exhausted: it holds no newline and fewer than `n` bytes. -/
theorem readLoop_eq (n i : Nat) (c : UInt8) (f : File) (ws : List (Nat × UInt8)) (hc : c ≠ 10) :
    readLoop n i c f ws = (i + lineLen n f.rest,
      ⟨f.rest.drop (lineLen n f.rest), f.eof || (f.rest.all (· != 10) && decide (f.rest.length < n)),
        f.err⟩,
      ws ++ (f.rest.take (lineLen n f.rest)).enumFrom i) := by
  obtain ⟨rest, eof, err⟩ := f
  induction n generalizing i c rest eof ws with
  | zero => simp [readLoop]
  | succ n ih =>
    cases rest with
    | nil => simp [readLoop, hc, File.readUnlocked]
    | cons b bs =>
      rw [readLoop, if_neg hc, lineLen_cons]
      simp only [File.readUnlocked]
      by_cases hb : b = 10
      · subst hb
        simp [readLoop_newline]
      · rw [ih (i + 1) b _ hb bs eof, if_neg hb]
        simp [hb, bne_iff_ne.mpr hb, Nat.add_assoc, Nat.add_comm 1]

theorem lineLen_eq_zero (n : Nat) (s : List UInt8) : lineLen n s = 0 ↔ n = 0 ∨ s = [] := by
  cases s <;> simp [lineLen]

/-! ### `fgets` -/

/-- For a positive `count`, `fgets` runs the loop of `readLoop_eq` from index `0` and then consults
    the sticky flags of the stream the loop leaves. -/
theorem fgets_of_pos (count : Int) (f : File) (h : 1 ≤ count) :
    fgets count f =
      let n := lineLen (count - 1).toNat f.rest
      let f' : File := ⟨f.rest.drop n,
        f.eof || (f.rest.all (· != 10) && decide (f.rest.length < (count - 1).toNat)), f.err⟩
      if f'.err || (n == 0 && f'.eof) then ⟨(f.rest.take n).enum, f', false⟩
      else ⟨(f.rest.take n).enum ++ [(n, 0)], f', true⟩ := by
  simp only [fgets, if_neg (show ¬count < 1 by omega),
    readLoop_eq _ _ _ _ _ (by decide : (0 : UInt8) ≠ 10), Nat.zero_add, List.nil_append,
    List.enum_eq_enumFrom]

/-- The null-pointer test after the loop: the error flag, or nothing stored with the end-of-file
    flag set, either already before the call or by a read that found the stream empty, which
    needs `count ≥ 2`. -/
theorem fgets_null_iff (count : Int) (f : File) (h : 1 ≤ count) :
    (f.err || (lineLen (count - 1).toNat f.rest == 0 &&
      (f.eof || (f.rest.all (· != 10) && decide (f.rest.length < (count - 1).toNat))))) = true ↔
    f.err = true ∨ (lineLen (count - 1).toNat f.rest = 0 ∧ (f.eof = true ∨ (f.rest = [] ∧ 2 ≤ count))) := by
  rw [Bool.or_eq_true, Bool.and_eq_true, beq_iff_eq, lineLen_eq_zero]
  rcases f with ⟨_ | ⟨b, bs⟩, eof, err⟩ <;> cases eof <;> cases err <;> simp <;> omega

/-- `fgets` with a positive `count` consumes `n = min(count - 1, |s|, p + 1)` bytes (`p` the index of
    the first newline), stores them at `str[0..n)` and never writes an index `≥ count`. It returns a
    null pointer, leaving `str[n]` unwritten, exactly when the error flag is set, or when it stored
    nothing and the end-of-file flag is set: by a read of this call (an empty stream and
    `count ≥ 2`) or already before it. Otherwise it writes `str[n] = '\0'` and returns `str`. A
    `count < 1` returns a null pointer and touches nothing. -/
theorem fgets_reads_line (count : Int) (f : File) :
    (count < 1 → fgets count f = ⟨[], f, false⟩) ∧
    (1 ≤ count →
      (fgets count f).stream.rest = f.rest.drop (lineLen (count - 1).toNat f.rest) ∧
      (fgets count f).stream.err = f.err ∧
      ((fgets count f).returnsStr = false ↔ f.err = true ∨
        (lineLen (count - 1).toNat f.rest = 0 ∧ (f.eof = true ∨ (f.rest = [] ∧ 2 ≤ count)))) ∧
      (fgets count f).writes = (f.rest.take (lineLen (count - 1).toNat f.rest)).enum ++
        (if (fgets count f).returnsStr then [(lineLen (count - 1).toNat f.rest, 0)] else []) ∧
      ∀ p ∈ (fgets count f).writes, (p.1 : Int) < count) := by
  refine ⟨fun h => by simp [fgets, h], fun h => ?_⟩
  have hn : lineLen (count - 1).toNat f.rest ≤ (count - 1).toNat := Nat.min_le_left _ _
  have hidx : ∀ p ∈ (f.rest.take (lineLen (count - 1).toNat f.rest)).enum, (p.1 : Int) < count :=
    fun p hp => by have := List.fst_lt_of_mem_enum hp; rw [List.length_take] at this; omega
  have hnull := fgets_null_iff count f h
  rw [fgets_of_pos count f h]
  dsimp only
  split <;> rename_i hc
  · refine ⟨rfl, rfl, by simpa [true_iff] using hnull.mp hc, by simp, ?_⟩
    simpa using hidx
  · refine ⟨rfl, rfl, by simpa using mt hnull.mpr hc, by simp, ?_⟩
    simp only [List.mem_append, List.mem_singleton]
    rintro p (hp | rfl)
    · exact hidx p hp
    · simp only; omega

/-- With a one-byte buffer `fgets` makes no read, yet an end-of-file flag left by an earlier
    operation makes it return a null pointer. -/
theorem fgets_sticky_eof : fgets 1 ⟨[65], true, false⟩ = ⟨[], ⟨[65], true, false⟩, false⟩ := by
  decide

end LlvmLibc.Stdio
