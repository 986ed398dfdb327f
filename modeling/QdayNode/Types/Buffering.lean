import QdayNode.Types.Basic

/-!
# The buffers between values and streams

`Encoder` collects what is written in a buffer of 1024 bytes.  `Decoder` reads through a scratch
buffer of 64 bytes and a limit on the stream, and keeps the first error.  Seen from outside both
are plain: the bytes arrive in order, and after an error nothing is read any more.
-/
namespace QdayNode.Buffering
open ByteString

variable {k : ℕ} {rest : Bytes}

section Encoder

/-- An encoder over a writer that takes everything: what has been written to it, and the part of
the buffer in use. -/
structure Encoder where
  out : Bytes
  buf : Bytes

namespace Encoder

def flush (e : Encoder) : Encoder := if e.buf.length > 0 then ⟨e.out ++ e.buf, []⟩ else e

/-- The loop of `Encoder.Write`; every pass copies a byte, so `fuel = len(p)` passes are enough. -/
def writeLoop : (fuel : ℕ) → Encoder → Bytes → Encoder
  | 0, e, _ => e
  | fuel+1, e, p =>
    if p.length > 0 then
      let e := if e.buf.length = 1024 then e.flush else e
      let c := min (1024 - e.buf.length) p.length
      writeLoop fuel ⟨e.out, e.buf ++ p.take c⟩ (p.drop c)
    else e

def write (e : Encoder) (p : Bytes) : Encoder := writeLoop p.length e p

def taken (e : Encoder) : Bytes := e.out ++ e.buf

theorem taken_flush (e : Encoder) : e.flush.taken = e.taken := by
  rw [flush]
  split_ifs
  · simp [taken]
  · rfl

theorem out_flush (e : Encoder) : e.flush.out = e.taken := by
  rw [flush,taken]
  split_ifs with h
  · rfl
  · rw [List.length_eq_zero_iff.mp (Nat.eq_zero_of_not_pos h),List.append_nil]

theorem writeLoop_taken (fuel : ℕ) (e : Encoder) (p : Bytes) (hfuel : p.length ≤ fuel) (hbuf : e.buf.length ≤ 1024) :
    (writeLoop fuel e p).taken = e.taken ++ p ∧ (writeLoop fuel e p).buf.length ≤ 1024 := by
  induction fuel generalizing e p with
  | zero =>
    rw [List.length_eq_zero_iff.mp (Nat.le_zero.mp hfuel),writeLoop,List.append_nil]
    exact ⟨rfl,hbuf⟩
  | succ fuel ih =>
    rw [writeLoop]
    by_cases hp : p.length > 0
    · -- after the flush there is room for a byte
      obtain ⟨e',he',htaken,hroom⟩ : ∃ e', (if e.buf.length = 1024 then e.flush else e) = e' ∧ e'.taken = e.taken ∧
          e'.buf.length < 1024 := by
        refine ⟨_,rfl,?_⟩
        split_ifs with hfull
        · refine ⟨taken_flush e,?_⟩
          rw [flush,if_pos (by omega)]
          exact Nat.zero_lt_succ _
        · exact ⟨rfl,by omega⟩
      rw [if_pos hp,he']
      obtain ⟨hih,hih'⟩ := ih ⟨e'.out,e'.buf ++ p.take (min (1024 - e'.buf.length) p.length)⟩
        (p.drop (min (1024 - e'.buf.length) p.length)) (by rw [List.length_drop]; omega)
        (by rw [List.length_append,List.length_take]; omega)
      refine ⟨hih.trans ?_,hih'⟩
      rw [← htaken]
      simp only [taken,List.append_assoc,List.take_append_drop]
    · rw [if_neg hp,List.length_eq_zero_iff.mp (Nat.eq_zero_of_not_pos hp),List.append_nil]
      exact ⟨rfl,hbuf⟩

theorem foldl_write_taken (ps : List Bytes) (e : Encoder) (hbuf : e.buf.length ≤ 1024) : (ps.foldl write e).taken = e.taken ++ ps.flatten := by
  induction ps generalizing e with
  | nil => exact (List.append_nil _).symm
  | cons p ps ih =>
    obtain ⟨htaken,hbuf'⟩ := writeLoop_taken p.length e p le_rfl hbuf
    rw [List.foldl_cons,ih (e.write p) hbuf',List.flatten_cons,← List.append_assoc,← htaken]
    rfl

end Encoder

end Encoder

section Decoder

/-- A decoder: what is left of the stream and of the limit, the scratch buffer and the first error. -/
structure Decoder where
  stream : Bytes
  limit : ℕ
  buf : Bytes
  err : Option String

namespace Decoder

def setErr (d : Decoder) (err : Option String) : Decoder :=
  if err.isSome ∧ d.err = none then { d with err := err, buf := List.replicate 64 0 } else d

/-- `io.ReadFull` from the limited stream into the first `k` bytes of the buffer. -/
def readFull (d : Decoder) (k : ℕ) : ℕ × Option String × Decoder :=
  let read := min k (min d.limit d.stream.length)
  (read, if read = k then none else if read = 0 then some "EOF" else some "unexpected EOF",
    { d with stream := d.stream.drop read, limit := d.limit - read, buf := d.stream.take read ++ d.buf.drop read })

/-- The loop of `Decoder.Read` with `want` bytes of `p` left; every pass but the last reads a byte. -/
def readLoop : (fuel : ℕ) → Decoder → (want : ℕ) → Bytes × Decoder
  | 0, d, _ => ([], d)
  | fuel+1, d, want =>
    if want > 0 ∧ d.err = none then
      let (read, err, d) := d.readFull (min want 64)
      let (rest, d') := readLoop fuel (d.setErr err) (want - read)
      (d.buf.take read ++ rest, d')
    else ([], d)

def read (d : Decoder) (n : ℕ) : Bytes × Decoder := readLoop n d n

/-- `d.Read(d.buf[:k])` and the bytes then in the buffer. -/
def readScratch (d : Decoder) (k : ℕ) : Bytes × Decoder :=
  let (_, d) := d.read k
  (d.buf.take k, d)

/-- The methods that read; `raw n` is `Read` with a slice of `n` bytes. -/
inductive Op
  | raw (n : ℕ)
  | bool
  | uint8
  | uint64
  | bytes

/-- The call, with the bytes of the value it returns. -/
def call (d : Decoder) : Op → Bytes × Decoder
  | .raw n => d.read n
  | .bool =>
    let (b, d) := d.readScratch 1
    if b = [0] ∨ b = [1] then (b, d) else ([0], d.setErr (some "invalid bool value"))
  | .uint8 => d.readScratch 1
  | .uint64 => d.readScratch 8
  | .bytes =>
    let (n, d) := d.readScratch 8
    if ofLittleEndian n > d.limit then ([], d.setErr (some "encoded object contains invalid length prefix"))
    else d.read (ofLittleEndian n)

/-- A sequence of calls: what each returns unless the decoder then reports an error. -/
def calls : List Op → Decoder → List (Option Bytes)
  | [], _ => []
  | op :: ops, d => (if (d.call op).2.err = none then some (d.call op).1 else none) :: calls ops (d.call op).2

end Decoder

/-- A value at the front of `rest`, and what follows it. -/
def Decoder.Op.next (rest : Bytes) : Op → Option (Bytes × Bytes)
  | .raw n => if n ≤ rest.length then some (rest.take n, rest.drop n) else none
  | .bool => if rest.take 1 = [0] ∨ rest.take 1 = [1] then some (rest.take 1, rest.drop 1) else none
  | .uint8 => if 1 ≤ rest.length then some (rest.take 1, rest.drop 1) else none
  | .uint64 => if 8 ≤ rest.length then some (rest.take 8, rest.drop 8) else none
  | .bytes =>
    if 8 ≤ rest.length ∧ ofLittleEndian (rest.take 8) ≤ (rest.drop 8).length then
      some ((rest.drop 8).take (ofLittleEndian (rest.take 8)), (rest.drop 8).drop (ofLittleEndian (rest.take 8)))
    else none

/-- Values taken from the front of a string, until one does not fit. -/
def Decoder.takes : List Op → Option Bytes → List (Option Bytes)
  | [], _ => []
  | op :: ops, rest => ((rest.bind op.next).map Prod.fst) :: takes ops ((rest.bind op.next).map Prod.snd)

namespace Decoder

/-- The decoder reports an error, or the bytes it can still read are `rest`. -/
def At (d : Decoder) : Option Bytes → Prop
  | none => d.err ≠ none
  | some rest => d.err = none ∧ d.stream.take d.limit = rest

theorem err_setErr (d : Decoder) (msg : String) : (d.setErr (some msg)).err ≠ none := by
  rw [setErr]
  split_ifs with h
  · exact Option.some_ne_none msg
  · exact fun hnone => h ⟨rfl,hnone⟩

variable {d : Decoder} {n : ℕ}

theorem readFull_fits (hat : d.At (some rest)) (hk : k ≤ rest.length) :
    ∃ d', d.readFull k = (k, none, d') ∧ d'.At (some (rest.drop k)) ∧ d'.buf.take k = rest.take k := by
  obtain ⟨herr,rfl⟩ := hat
  rw [List.length_take] at hk
  rw [readFull,min_eq_left hk,if_pos rfl]
  refine ⟨_,rfl,⟨herr,?_⟩,?_⟩
  · rw [List.drop_take]
  · rw [List.take_left' (by rw [List.length_take]; omega),List.take_take,min_eq_left (by omega)]

theorem readFull_short (hat : d.At (some rest)) (hk : rest.length < k) :
    ∃ n msg d', d.readFull k = (n, some msg, d') := by
  obtain ⟨-,rfl⟩ := hat
  rw [List.length_take] at hk
  rw [readFull,if_neg (by omega)]
  split_ifs
  · exact ⟨_,_,_,rfl⟩
  · exact ⟨_,_,_,rfl⟩

theorem readLoop_err (fuel n : ℕ) (herr : d.err ≠ none) : readLoop fuel d n = ([], d) := by
  cases fuel with
  | zero => rfl
  | succ fuel => rw [readLoop,if_neg fun h => herr h.2]

theorem readLoop_zero (fuel : ℕ) (d : Decoder) : readLoop fuel d 0 = ([], d) := by
  cases fuel with
  | zero => rfl
  | succ fuel => rw [readLoop,if_neg fun h => absurd h.1 (lt_irrefl 0)]

theorem readLoop_fits (fuel : ℕ) (hfuel : n ≤ fuel) (hat : d.At (some rest)) (hn : n ≤ rest.length) :
    (readLoop fuel d n).2.At (some (rest.drop n)) ∧ (readLoop fuel d n).1 = rest.take n ∧
      (n ≤ 64 → (readLoop fuel d n).2.buf.take n = rest.take n) := by
  induction fuel generalizing d n rest with
  | zero =>
    obtain rfl := Nat.le_zero.mp hfuel
    exact ⟨hat,rfl,fun _ => rfl⟩
  | succ fuel ih =>
    obtain rfl | hpos := Nat.eq_zero_or_pos n
    · rw [readLoop_zero]
      exact ⟨hat,rfl,fun _ => rfl⟩
    · obtain ⟨d',hrun,hat',hbuf⟩ := readFull_fits hat (le_trans (min_le_left n 64) hn)
      have hdrop : n - min n 64 ≤ (rest.drop (min n 64)).length := by
        rw [List.length_drop]
        omega
      obtain ⟨hend,hval,-⟩ := ih (by omega) hat' hdrop
      have hset : d'.setErr none = d' := if_neg fun h => absurd h.1 Bool.false_ne_true
      rw [readLoop,if_pos ⟨hpos,hat.1⟩,hrun]
      simp only [hset,hval,hbuf]
      rw [List.drop_drop,Nat.add_sub_cancel' (min_le_left n 64)] at hend
      refine ⟨hend,?_,fun hle => ?_⟩
      · rw [← List.take_add,Nat.add_sub_cancel' (min_le_left n 64)]
      · rw [min_eq_left hle] at hbuf ⊢
        rw [Nat.sub_self,readLoop_zero,hbuf]

theorem readLoop_short (fuel : ℕ) (hfuel : n ≤ fuel) (hat : d.At (some rest)) (hn : rest.length < n) :
    (readLoop fuel d n).2.err ≠ none := by
  induction fuel generalizing d n rest with
  | zero => omega
  | succ fuel ih =>
    rw [readLoop,if_pos ⟨by omega,hat.1⟩]
    obtain hle | hlt := le_or_gt (min n 64) rest.length
    · obtain ⟨d',hrun,hat',-⟩ := readFull_fits hat hle
      rw [hrun]
      refine ih (by omega) hat' ?_
      rw [List.length_drop]
      omega
    · obtain ⟨k,msg,d',hrun⟩ := readFull_short hat hlt
      simp only [hrun,readLoop_err fuel _ (err_setErr d' msg)]
      exact err_setErr d' msg

/-- What a call may come to. -/
def Gives (r : Bytes × Decoder) : Option (Bytes × Bytes) → Prop
  | none => r.2.err ≠ none
  | some (value, rest) => r.1 = value ∧ r.2.At (some rest)

theorem gives_read (hat : d.At (some rest)) (n : ℕ) : Gives (d.read n) (Op.next rest (.raw n)) := by
  rw [Op.next]
  split_ifs with hn
  · obtain ⟨hend,hval,-⟩ := readLoop_fits n le_rfl hat hn
    exact ⟨hval,hend⟩
  · exact readLoop_short n le_rfl hat (by omega)

theorem gives_readScratch {d : Decoder} {rest : Bytes} (hat : d.At (some rest)) {k : ℕ} (hk : k ≤ 64) :
    Gives (d.readScratch k) (Op.next rest (.raw k)) := by
  rw [Op.next]
  split_ifs with hn
  · obtain ⟨hend,-,hbuf⟩ := readLoop_fits k le_rfl hat hn
    exact ⟨hbuf hk,hend⟩
  · exact readLoop_short k le_rfl hat (by omega)

theorem call_err (herr : d.err ≠ none) (op : Op) : (d.call op).2.err ≠ none := by
  have hread : ∀ n, d.read n = ([], d) := fun n => readLoop_err n n herr
  cases op with
  | raw n => rw [call,hread]; exact herr
  | bool =>
    simp only [call,readScratch,hread]
    split_ifs
    · exact herr
    · exact err_setErr d _
  | uint8 => simpa only [call,readScratch,hread] using herr
  | uint64 => simpa only [call,readScratch,hread] using herr
  | bytes =>
    simp only [call,readScratch,hread]
    split_ifs
    · exact err_setErr d _
    · exact herr

theorem gives_call (hat : d.At (some rest)) (op : Op) : Gives (d.call op) (op.next rest) := by
  cases op with
  | raw n => exact gives_read hat n
  | bool =>
    have hscratch := @gives_readScratch d rest hat 1 (by decide)
    rw [call,Op.next]
    generalize d.readScratch 1 = r at hscratch ⊢
    obtain ⟨b,d'⟩ := r
    rw [Op.next] at hscratch
    split_ifs at hscratch with hlen
    · obtain ⟨rfl,hat'⟩ : b = rest.take 1 ∧ d'.At (some (rest.drop 1)) := hscratch
      dsimp only
      split_ifs
      · exact ⟨rfl,hat'⟩
      · exact err_setErr d' _
    · obtain rfl : rest = [] := List.length_eq_zero_iff.mp (by omega)
      rw [if_neg (by decide : ¬ (([] : Bytes).take 1 = [0] ∨ ([] : Bytes).take 1 = [1]))]
      dsimp only
      split_ifs
      · exact hscratch
      · exact err_setErr d' _
  | uint8 => exact gives_readScratch hat (by decide)
  | uint64 => exact gives_readScratch hat (by decide)
  | bytes =>
    have hscratch := @gives_readScratch d rest hat 8 (by decide)
    rw [call,Op.next]
    generalize d.readScratch 8 = r at hscratch ⊢
    obtain ⟨n,d'⟩ := r
    rw [Op.next] at hscratch
    split_ifs at hscratch with hlen
    · obtain ⟨rfl,hat'⟩ : n = rest.take 8 ∧ d'.At (some (rest.drop 8)) := hscratch
      simp only [hlen,true_and]
      by_cases hlimit : ofLittleEndian (rest.take 8) > d'.limit
      · have hle : (rest.drop 8).length ≤ d'.limit := by
          rw [← hat'.2,List.length_take]
          exact min_le_left _ _
        rw [if_pos hlimit,if_neg (by omega)]
        exact err_setErr d' _
      · rw [if_neg hlimit]
        exact gives_read hat' _
    · rw [if_neg fun h => hlen h.1]
      dsimp only
      split_ifs
      · exact err_setErr d' _
      · rw [read,readLoop_err _ _ hscratch]
        exact hscratch

theorem calls_eq_takes (ops : List Op) {st : Option Bytes} (hat : d.At st) : calls ops d = takes ops st := by
  induction ops generalizing d st with
  | nil => rfl
  | cons op ops ih =>
    rw [calls,takes]
    cases st with
    | none =>
      have herr := call_err hat op
      rw [if_neg herr,@ih _ none herr]
      rfl
    | some rest =>
      have hgives := gives_call hat op
      rw [Option.bind_some]
      cases hnext : op.next rest with
      | none =>
        rw [hnext] at hgives
        rw [if_neg hgives,@ih _ none hgives]
        rfl
      | some r =>
        rw [hnext] at hgives
        rw [if_pos hgives.2.1,hgives.1,ih hgives.2]
        rfl

end Decoder

end Decoder

def newDecoder (stream : Bytes) (limit : ℕ) : Decoder := ⟨stream, limit, List.replicate 64 0, none⟩

/-- Written bytes come out in order and read ones come in in order, up to the first read that does not fit. -/
theorem buffering_exact :
    (∀ ps : List Bytes, (ps.foldl Encoder.write ⟨[], []⟩).flush.out = ps.flatten) ∧
      ∀ (ops : List Decoder.Op) (stream : Bytes) (limit : ℕ),
        Decoder.calls ops (newDecoder stream limit) = Decoder.takes ops (some (stream.take limit)) := by
  refine ⟨fun ps => ?_,fun ops stream limit => Decoder.calls_eq_takes ops ⟨rfl,rfl⟩⟩
  rw [Encoder.out_flush,Encoder.foldl_write_taken ps _ (Nat.zero_le _)]
  rfl

end QdayNode.Buffering
