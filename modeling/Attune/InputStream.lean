import Attune.CheckedMemory

namespace Attune.Stream
open Attune.Memory

/-- An opened `std::ifstream`; not good once an operation failed or came to the end. -/
structure InStream where
  file : Bytes
  pos : Nat
  good : Bool
  deriving DecidableEq

/-- The bytes of an object on the stack; a byte that was never written has no value. -/
abbrev Object := List (Option UInt8)

def uninitialised (size : Nat) : Object := List.replicate size none

def Object.fill (obj : Object) (bytes : Bytes) : Object := bytes.map some ++ obj.drop bytes.length

def Object.field (obj : Object) (start width : Nat) : Option Nat :=
  (((obj.drop start).take width).mapM id).map littleEndian

namespace InStream

def ofFile (file : Bytes) : InStream := ⟨file, 0, true⟩

/-- The offset is converted to a signed one; a negative one is refused. -/
def seekg (s : InStream) (offset : Nat) : InStream :=
  if s.good ∧ offset < 2 ^ 63 then { s with pos := offset } else { s with good := false }

def read (s : InStream) (size : Nat) : Bytes × InStream :=
  if s.good then
    let got := slice s.file s.pos size
    (got, { s with pos := s.pos + got.length, good := got.length = size })
  else ([], s)

/-- `std::getline` leaves the string as it is when the stream is not good. -/
def getline (s : InStream) (delim : UInt8) (str : Bytes) : Bytes × InStream :=
  if s.good then
    let rest := s.file.drop s.pos
    let line := rest.takeWhile (· != delim)
    if line.length < rest.length then (line, { s with pos := s.pos + line.length + 1 })
    else (line, { s with pos := s.pos + line.length, good := false })
  else (str, s)

def getlines (delim : UInt8) : Nat → InStream → Bytes → Bytes
  | 0, _, str => str
  | n + 1, s, str =>
    let (str, s) := s.getline delim str
    getlines delim n s str

end InStream

def nthPart (delim : UInt8) (bytes : Bytes) (n : Nat) : Bytes :=
  ((bytes.splitOn delim)[min n ((bytes.splitOn delim).length - 1)]?).getD []

theorem nthPart_of_not_mem (h : delim ∉ bytes) (n : Nat) : nthPart delim bytes n = bytes := by
  have hsp : bytes.splitOn delim = [bytes] :=
    List.splitOnP_eq_singleton fun _ hb => beq_false_of_ne (ne_of_mem_of_not_mem hb h)
  rw [nthPart, hsp, List.length_singleton, Nat.sub_self, Nat.min_zero]
  rfl

theorem splitOn_append (h : delim ∉ line) (tail : Bytes) :
    (line ++ delim :: tail).splitOn delim = line :: tail.splitOn delim :=
  List.splitOnP_append_cons_of_forall_mem
    (fun _ hb => beq_false_of_ne (ne_of_mem_of_not_mem hb h)) delim BEq.rfl tail

theorem nthPart_append_zero (h : delim ∉ line) (tail : Bytes) :
    nthPart delim (line ++ delim :: tail) 0 = line := by
  rw [nthPart, splitOn_append h, Nat.zero_min]
  rfl

theorem nthPart_append_succ (h : delim ∉ line) (tail : Bytes) (n : Nat) :
    nthPart delim (line ++ delim :: tail) (n + 1) = nthPart delim tail n := by
  have hpos : 0 < (tail.splitOn delim).length :=
    List.length_pos_of_ne_nil (List.splitOnP_ne_nil _ tail)
  have hmin : min (n + 1) ((tail.splitOn delim).length + 1 - 1) =
      min n ((tail.splitOn delim).length - 1) + 1 := by omega
  rw [nthPart, splitOn_append h, List.length_cons, hmin, List.getElem?_cons_succ, nthPart]

theorem field_fill_uninitialised (hb : bytes.length ≤ start) (hst : start < size)
    (hw : 0 < width) : ((uninitialised size).fill bytes).field start width = none := by
  obtain ⟨w, rfl⟩ : ∃ w, width = w + 1 := ⟨width - 1, by omega⟩
  have hd : ((uninitialised size).fill bytes).drop start =
      none :: List.replicate (size - start - 1) none := by
    rw [Object.fill, List.drop_append, List.drop_of_length_le (by rw [List.length_map]; omega),
      List.nil_append, List.length_map, List.drop_drop, uninitialised, List.drop_replicate,
      ← List.replicate_succ]
    congr 1
    omega
  rw [Object.field, hd, List.take_succ_cons, List.mapM_cons]
  rfl

namespace InStream

variable {s : InStream}

theorem seekg_of_lt (hs : s.good = true) (h : offset < 2 ^ 63) :
    s.seekg offset = { s with pos := offset } := if_pos ⟨hs, h⟩

theorem length_read_le (s : InStream) (size : Nat) : (s.read size).1.length ≤ size := by
  rw [read]
  split
  · exact length_slice _ _ _
  · exact Nat.zero_le _

theorem getlines_of_not_good (hs : ¬ s.good = true) (n : Nat) (str : Bytes) :
    s.getlines delim n str = str := by
  induction n with
  | zero => rfl
  | succ n ih => rw [getlines, getline, if_neg hs]; exact ih

theorem getline_of_delim (hs : s.good = true) (hl : delim ∉ line)
    (hr : s.file.drop s.pos = line ++ delim :: tail) (str : Bytes) :
    s.getline delim str = (line, { s with pos := s.pos + line.length + 1 }) := by
  have ht : (line ++ delim :: tail).takeWhile (· != delim) = line := by
    rw [List.takeWhile_append_of_pos, List.takeWhile_cons_of_neg, List.append_nil]
    · rw [bne_self_eq_false]
      exact Bool.false_ne_true
    · intro b hb
      exact bne_iff_ne.mpr (ne_of_mem_of_not_mem hb hl)
  rw [getline, if_pos hs, hr]
  dsimp only
  rw [ht, if_pos (by rw [List.length_append, List.length_cons]; omega)]

theorem getline_of_end (hs : s.good = true) (hr : delim ∉ s.file.drop s.pos)
    (str : Bytes) : ∃ s', s.getline delim str = (s.file.drop s.pos, s') ∧ ¬ s'.good = true := by
  have ht : (s.file.drop s.pos).takeWhile (· != delim) = s.file.drop s.pos := by
    have ha : (s.file.drop s.pos ++ []).takeWhile (· != delim) =
        s.file.drop s.pos ++ [].takeWhile (· != delim) :=
      List.takeWhile_append_of_pos fun b hb => bne_iff_ne.mpr (ne_of_mem_of_not_mem hb hr)
    rwa [List.append_nil, List.takeWhile_nil, List.append_nil] at ha
  rw [getline, if_pos hs]
  dsimp only
  rw [ht, if_neg (Nat.lt_irrefl _)]
  exact ⟨_, rfl, Bool.false_ne_true⟩

theorem getlines_eq (hs : s.good = true) (n : Nat) (str : Bytes) :
    s.getlines delim (n + 1) str = nthPart delim (s.file.drop s.pos) n := by
  induction n generalizing s str with
  | zero =>
    by_cases hmem : delim ∈ s.file.drop s.pos
    · obtain ⟨line, tail, hr, hl⟩ := List.eq_append_cons_of_mem hmem
      rw [getlines, getline_of_delim hs hl hr, hr, nthPart_append_zero hl]
      rfl
    · obtain ⟨s', hget, _⟩ := getline_of_end hs hmem str
      rw [getlines, hget, nthPart_of_not_mem hmem]
      rfl
  | succ n ih =>
    by_cases hmem : delim ∈ s.file.drop s.pos
    · obtain ⟨line, tail, hr, hl⟩ := List.eq_append_cons_of_mem hmem
      have ht : s.file.drop (s.pos + line.length + 1) = tail := by
        rw [Nat.add_assoc, ← List.drop_drop, hr, ← List.drop_drop, List.drop_left]
        rfl
      rw [getlines, getline_of_delim hs hl hr, hr, nthPart_append_succ hl, ← ht]
      exact ih (s := ⟨s.file, s.pos + line.length + 1, s.good⟩) hs line
    · obtain ⟨s', hget, hbad⟩ := getline_of_end hs hmem str
      rw [getlines, hget, nthPart_of_not_mem hmem]
      exact getlines_of_not_good hbad _ _

end InStream

end Attune.Stream
