import Path64.Strtab.Table
import Mathlib.Logic.Relation

/-!
# The string tables of a compilation

`Strtab` and `TCON_strtab` under every sequence of saves, set-ups from a file and merges.

* `Program` : the operations so far; a file's bytes come from a program of their own;
* `run` : the tables after a program, with the log of the indices handed out and the strings they were handed out for;
* `WithinRange` : the strings of each table, stored once each, stay below `2 ^ 32` bytes;
* `run_spec` : the program runs and its tables hold its strings;
* `interns_faithfully` : indices keep denoting their strings, one index for a string, and a merge maps old to new;
* `index_lost` : setting a table up from another file makes older indices denote other strings.
-/

namespace Path64.Strtab

open Records

/-- The two tables. -/
inductive Kind
  | strtab
  | tconStrtab
deriving DecidableEq

/-- How a table stores its strings. -/
def Kind.format : Kind → StrFormat
  | .strtab => nullTerminatedFormat
  | .tconStrtab => characterArrayFormat

/-- The bytes of a C string. -/
abbrev CStr := { s : List UInt8 // 0 ∉ s }

/-- The operations so far. Pointers are followed by any bytes, and the buffers read come from programs. -/
inductive Program
  | start (size tconSize : Nat)
  | saveNull (p : Program)
  | saveStr (p : Program) (s : CStr) (rest : List UInt8)
  | saveStr2 (p : Program) (s1 s2 : CStr) (rest1 rest2 : List UInt8)
  | saveStrN (p : Program) (s rest : List UInt8)
  | initializeFrom (k : Kind) (p q : Program)
  | merge (k : Kind) (p q : Program) (map : Nat → Nat)

/-- The tables, and for each the indices it handed out with the strings they were handed out for. -/
structure Session where
  tab : Kind → StrTab
  log : Kind → List (Nat × List UInt8)

/-- Table `k` is now `t`, and the indices of `es` were handed out. -/
def Session.record (S : Session) (k : Kind) (t : StrTab) (es : List (Nat × List UInt8)) : Session :=
  ⟨Function.update S.tab k t, Function.update S.log k (es ++ S.log k)⟩

section
variable (nextSize : Nat → Nat) (junk : Nat → Nat → UInt8)

/-- The tables after a program; a table set up from a file has handed out what the writing table had. -/
def run : Program → Option Session
  | .start size tconSize => do
    let s ← initializeEmpty junk (StrTab.new nextSize 1000) size
    let c ← initializeEmpty junk (StrTab.new nextSize 512) tconSize
    some ⟨fun | .strtab => s | .tconStrtab => c, fun _ => []⟩
  | .saveNull p => do
    let S ← run p
    let (t, _) ← saveStr nextSize junk (S.tab .strtab) none
    some (S.record .strtab t [])
  | .saveStr p s rest => do
    let S ← run p
    let (t, i) ← saveStr nextSize junk (S.tab .strtab) (some (s.1 ++ 0 :: rest))
    some (S.record .strtab t [(i, s.1)])
  | .saveStr2 p s1 s2 rest1 rest2 => do
    let S ← run p
    let (t, i) ← saveStr2 nextSize junk (S.tab .strtab) (s1.1 ++ 0 :: rest1) (s2.1 ++ 0 :: rest2)
    some (S.record .strtab t [(i, s1.1 ++ s2.1)])
  | .saveStrN p s rest => do
    let S ← run p
    let (t, i) ← saveStrN nextSize junk (S.tab .tconStrtab) (s ++ rest) s.length
    some (S.record .tconStrtab t [(i, s)])
  | .initializeFrom k p q => do
    let S ← run p
    let Q ← run q
    let t ← initializeStrtab nextSize k.format.STR (S.tab k) (Q.tab k).image (Q.tab k).lastIdx
    some ⟨Function.update S.tab k t, Function.update S.log k (Q.log k)⟩
  | .merge k p q map => do
    let S ← run p
    let Q ← run q
    let (t, map') ← mergeStrtab nextSize junk k.format.STR (S.tab k) (Q.tab k).image (Q.tab k).lastIdx map
    some (S.record k t ((Q.log k).map fun e => (map' e.1, e.2)))

end

/-- The strings a table should hold after a program, each once. -/
def strings : Program → Kind → List (List UInt8)
  | .start _ _ => fun _ => []
  | .saveNull p => strings p
  | .saveStr p s _ => Function.update (strings p) .strtab (addNew (strings p .strtab) s.1)
  | .saveStr2 p s1 s2 _ _ => Function.update (strings p) .strtab (addNew (strings p .strtab) (s1.1 ++ s2.1))
  | .saveStrN p s _ =>
    if s = [] then strings p else Function.update (strings p) .tconStrtab (addNew (strings p .tconStrtab) s)
  | .initializeFrom k p q => Function.update (strings p) k (strings q k)
  | .merge k p q _ => Function.update (strings p) k ((strings q k).foldl addNew (strings p k))

/-- The size of the strings that table `k` should hold stays within 32 bits. -/
def Fits (p : Program) : Prop := ∀ k, (layout k.format (strings p k)).length < 2 ^ 32

/-- The tables start with a buffer and their size stays within 32 bits all along. -/
def WithinRange : Program → Prop
  | .start size tconSize => 0 < size ∧ 0 < tconSize
  | .saveNull p => WithinRange p
  | .saveStr p s rest => WithinRange p ∧ Fits (.saveStr p s rest)
  | .saveStr2 p s1 s2 rest1 rest2 => WithinRange p ∧ Fits (.saveStr2 p s1 s2 rest1 rest2)
  | .saveStrN p s rest => WithinRange p ∧ Fits (.saveStrN p s rest)
  | .initializeFrom _ p q => WithinRange p ∧ WithinRange q
  | .merge k p q map => WithinRange p ∧ WithinRange q ∧ Fits (.merge k p q map)

/-! ## Every program runs -/

/-- The table holds `strs`, and they are what its log has, up to the empty array, which is not stored. -/
structure Holds (F : StrFormat) (t : StrTab) (log : List (Nat × List UInt8)) (strs : List (List UInt8)) : Prop where
  rep : Represents F t strs
  logged : ∀ e ∈ log, e ∈ entries F strs ∨ e = (0, []) ∧ ¬ F.Valid []
  stored : ∀ e ∈ entries F strs, e ∈ log

section
variable {F : StrFormat} {t t' : StrTab} {log es : List (Nat × List UInt8)} {strs new : List (List UInt8)}

theorem Holds.grow (h : Holds F t log strs) (hrep : Represents F t' new)
    (hold : ∀ e ∈ entries F strs, e ∈ entries F new)
    (hes : ∀ e ∈ es, e ∈ entries F new ∨ e = (0, []) ∧ ¬ F.Valid [])
    (hnew : ∀ s ∈ new, s ∈ strs ∨ ∃ i, (i, s) ∈ es) : Holds F t' (es ++ log) new := by
  refine ⟨hrep, fun e he => ?_, fun e he => ?_⟩
  · rcases List.mem_append.1 he with he | he
    · exact hes e he
    · exact (h.logged e he).imp (hold e) id
  · have hmem := mem_of_record he
    rcases hnew e.2 hmem with hs | ⟨i, hi⟩
    · obtain ⟨i, hi⟩ := exists_record F.encode 1 hs
      have heq : e = (i, e.2) := Prod.ext (record_of_unique hrep.nodup he (hold _ hi)) rfl
      rw [heq]
      exact List.mem_append_right _ (h.stored _ hi)
    · rcases hes _ hi with hin | ⟨hzero, hinv⟩
      · have heq : e = (i, e.2) := Prod.ext (record_of_unique hrep.nodup he hin) rfl
        rw [heq]
        exact List.mem_append_left _ hi
      · rw [(Prod.mk.inj hzero).2] at hmem
        exact absurd (hrep.valid [] hmem) hinv

theorem Holds.save {s : List UInt8} {i : Nat} (h : Holds F t log strs) (hrep : Represents F t' (addNew strs s))
    (hi : (i, s) ∈ entries F (addNew strs s)) : Holds F t' ([(i, s)] ++ log) (addNew strs s) := by
  refine h.grow hrep (fun e he => recordsAt_addNew s he) (fun e he => ?_) fun a ha => ?_
  · rw [List.mem_singleton.1 he]
    exact Or.inl hi
  · refine (mem_addNew.1 ha).imp id fun heq => ⟨i, ?_⟩
    rw [heq]
    exact List.mem_singleton_self _

/-- Another table was merged in. -/
theorem Holds.merge {q : StrTab} {qlog : List (Nat × List UInt8)} {other : List (List UInt8)} {map : Nat → Nat}
    (h : Holds F t log strs) (hq : Holds F q qlog other) (hm : Merged F strs other t' map) :
    Holds F t' ((qlog.map fun e => (map e.1, e.2)) ++ log) (other.foldl addNew strs) := by
  refine h.grow hm.rep (fun e he => recordsAt_foldl_addNew other he) (fun e he => ?_) fun a ha => ?_
  · obtain ⟨f, hf, rfl⟩ := List.mem_map.1 he
    rcases hq.logged f hf with hin | ⟨rfl, hinv⟩
    · exact Or.inl (hm.moved f hin)
    · rw [hm.zero]
      exact Or.inr ⟨rfl, hinv⟩
  · refine (mem_foldl_addNew.1 ha).imp id fun hother => ?_
    obtain ⟨i, hi⟩ := exists_record F.encode 1 hother
    exact ⟨map i, List.mem_map.2 ⟨(i, a), hq.stored _ hi, rfl⟩⟩

end

/-- Both tables of a session hold their strings. -/
def HoldsAll (S : Session) (strs : Kind → List (List UInt8)) : Prop :=
  ∀ k, Holds k.format (S.tab k) (S.log k) (strs k)

theorem HoldsAll.update {S : Session} {strs : Kind → List (List UInt8)} (h : HoldsAll S strs) {k : Kind} {t : StrTab}
    {log : List (Nat × List UInt8)} {new : List (List UInt8)} (hk : Holds k.format t log new) :
    HoldsAll ⟨Function.update S.tab k t, Function.update S.log k log⟩ (Function.update strs k new) := by
  intro k'
  by_cases he : k' = k
  · subst he
    simp only [Function.update_self]
    exact hk
  · simp only [Function.update_of_ne he]
    exact h k'

theorem initializeEmpty_spec {F : StrFormat} {nextSize : Nat → Nat} (hnext : ∀ n, 0 < nextSize n)
    (junk : Nat → Nat → UInt8) (bucketSize : Nat) {size : Nat} (hsize : 0 < size) :
    ∃ t, initializeEmpty junk (StrTab.new nextSize bucketSize) size = some t ∧ Holds F t [] [] := by
  have hlen : (alloc junk size).length = size := by rw [alloc, List.length_map, List.length_range]
  refine ⟨⟨0 :: (alloc junk size).drop 1, 1, size, HashTable.empty (nextSize bucketSize)⟩, ?_,
    ⟨?_, ⟨(alloc junk size).drop 1, rfl⟩, rfl, Nat.one_lt_two_pow (by decide), List.nodup_nil, ?_, ?_, ?_⟩, ?_, ?_⟩
  · rw [initializeEmpty, writeAt, if_pos (by simp; omega)]
    rfl
  · simp
    omega
  · exact fun s hs => absurd hs List.not_mem_nil
  · exact HashTable.placed_empty (hnext _)
  · refine fun w => iff_of_false (HashTable.not_mem_empty _ _) ?_
    rintro ⟨_, he, _⟩
    exact List.not_mem_nil he
  · exact fun e he => absurd he List.not_mem_nil
  · exact fun e he => absurd he List.not_mem_nil

section
variable (nextSize : Nat → Nat) (junk : Nat → Nat → UInt8)

theorem strlen_append_null {s : List UInt8} (hs : 0 ∉ s) (rest : List UInt8) : strlen (s ++ 0 :: rest) = s.length := by
  rw [strlen, cString_append_null hs]

theorem saveStr_spec {t : StrTab} {strs : List (List UInt8)} {log : List (Nat × List UInt8)}
    (h : Holds nullTerminatedFormat t log strs) {s : List UInt8} (hs : 0 ∉ s) (rest : List UInt8)
    (hfits : (layout nullTerminatedFormat (addNew strs s)).length < 2 ^ 32) :
    ∃ t' i, saveStr nextSize junk t (some (s ++ 0 :: rest)) = some (t', i) ∧
      Holds nullTerminatedFormat t' ([(i, s)] ++ log) (addNew strs s) := by
  obtain ⟨t', i, hins, hrep, hi⟩ := insert_spec nextSize junk h.rep hs hfits List.take_left
  refine ⟨t', i, ?_, h.save hrep hi⟩
  have hlen : s.length % 2 ^ 32 = s.length := Nat.mod_eq_of_lt
    ((nullTerminatedFormat.length_lt s).trans (h.rep.length_encode_addNew hfits))
  rw [saveStr, strlen_append_null hs, hlen]
  exact hins

/-- A character array is saved under the offset of its bytes; the empty one has the offset 0. -/
theorem saveStrN_spec {t : StrTab} {strs : List (List UInt8)} {log : List (Nat × List UInt8)}
    (h : Holds characterArrayFormat t log strs) (s rest : List UInt8)
    (hfits : s ≠ [] → (layout characterArrayFormat (addNew strs s)).length < 2 ^ 32) :
    ∃ t' i, saveStrN nextSize junk t (s ++ rest) s.length = some (t', i) ∧
      Holds characterArrayFormat t' ([(i, s)] ++ log) (if s = [] then strs else addNew strs s) := by
  rw [saveStrN]
  by_cases hs : s = []
  · subst hs
    refine ⟨t, 0, rfl, ?_⟩
    rw [if_pos rfl]
    refine h.grow h.rep (fun e he => he) (fun e he => Or.inr ⟨List.mem_singleton.1 he, not_not.2 rfl⟩) ?_
    exact fun a ha => Or.inl ha
  · obtain ⟨t', i, hins, hrep, hi⟩ := insert_spec nextSize junk h.rep hs (hfits hs) List.take_left
    have hmod : i % 2 ^ 32 = i := Nat.mod_eq_of_lt ((hrep.lt_lastIdx hi).trans hrep.small)
    refine ⟨t', i, ?_, ?_⟩
    · rw [if_neg (by simpa using hs), show insert nextSize junk characterArray t (s ++ rest) s.length = _ from hins,
        Option.map_some, hmod]
    · rw [if_neg hs]
      exact h.save hrep hi

/-- Every program within the range runs, and its tables hold its strings. -/
theorem run_spec (hnext : ∀ n, 0 < nextSize n) : ∀ p, WithinRange p →
    ∃ S, run nextSize junk p = some S ∧ HoldsAll S (strings p) := by
  intro p
  induction p with
  | start size tconSize =>
    intro hp
    obtain ⟨s, hs, hs'⟩ := initializeEmpty_spec (F := nullTerminatedFormat) hnext junk 1000 hp.1
    obtain ⟨c, hc, hc'⟩ := initializeEmpty_spec (F := characterArrayFormat) hnext junk 512 hp.2
    refine ⟨⟨fun | .strtab => s | .tconStrtab => c, fun _ => []⟩, ?_, fun k => ?_⟩
    · rw [run, hs, hc]
      rfl
    · cases k
      · exact hs'
      · exact hc'
  | saveNull p ih =>
    intro hp
    obtain ⟨S, hrun, h⟩ := ih hp
    refine ⟨S.record .strtab (S.tab .strtab) [], ?_, ?_⟩
    · rw [run, hrun]
      rfl
    · have hsame := h.update (h .strtab)
      rwa [Function.update_eq_self Kind.strtab (strings p)] at hsame
  | saveStr p s rest ih =>
    intro hp
    obtain ⟨S, hrun, h⟩ := ih hp.1
    have hfits := hp.2 .strtab
    rw [strings, Function.update_self] at hfits
    obtain ⟨t, i, hsave, ht⟩ := saveStr_spec nextSize junk (h .strtab) s.2 rest hfits
    refine ⟨S.record .strtab t [(i, s.1)], ?_, h.update ht⟩
    rw [run, hrun]
    show (saveStr nextSize junk (S.tab .strtab) (some (s.1 ++ 0 :: rest))).bind _ = _
    rw [hsave]
    rfl
  | saveStr2 p s1 s2 rest1 rest2 ih =>
    intro hp
    obtain ⟨S, hrun, h⟩ := ih hp.1
    have hfits := hp.2 .strtab
    rw [strings, Function.update_self] at hfits
    have hs : 0 ∉ s1.1 ++ s2.1 := fun hm => (List.mem_append.1 hm).elim s1.2 s2.2
    obtain ⟨t, i, hsave, ht⟩ := saveStr_spec nextSize junk (h .strtab) hs [] hfits
    refine ⟨S.record .strtab t [(i, s1.1 ++ s2.1)], ?_, h.update ht⟩
    rw [run, hrun]
    show (saveStr2 nextSize junk (S.tab .strtab) (s1.1 ++ 0 :: rest1) (s2.1 ++ 0 :: rest2)).bind _ = _
    rw [saveStr2, cString_append_null s1.2, cString_append_null s2.2, hsave]
    rfl
  | saveStrN p s rest ih =>
    intro hp
    obtain ⟨S, hrun, h⟩ := ih hp.1
    have hfits : s ≠ [] → (layout characterArrayFormat (addNew (strings p .tconStrtab) s)).length < 2 ^ 32 := by
      intro hs
      have := hp.2 .tconStrtab
      rwa [strings, if_neg hs, Function.update_self] at this
    obtain ⟨t, i, hsave, ht⟩ := saveStrN_spec nextSize junk (h .tconStrtab) s rest hfits
    refine ⟨S.record .tconStrtab t [(i, s)], ?_, ?_⟩
    · rw [run, hrun]
      show (saveStrN nextSize junk (S.tab .tconStrtab) (s ++ rest) s.length).bind _ = _
      rw [hsave]
      rfl
    · have hnew := h.update (k := .tconStrtab) ht
      rw [strings]
      split_ifs at hnew ⊢ with hs
      · rwa [Function.update_eq_self Kind.tconStrtab (strings p)] at hnew
      · exact hnew
  | initializeFrom k p q ihp ihq =>
    intro hp
    obtain ⟨S, hrun, h⟩ := ihp hp.1
    obtain ⟨Q, hqrun, hq⟩ := ihq hp.2
    obtain ⟨t, hinit, ht⟩ := initializeStrtab_spec nextSize (hq k).rep (h k).rep.placed.pos
    refine ⟨⟨Function.update S.tab k t, Function.update S.log k (Q.log k)⟩, ?_,
      h.update ⟨ht, (hq k).logged, (hq k).stored⟩⟩
    rw [run, hrun, hqrun]
    show (initializeStrtab nextSize k.format.STR (S.tab k) (Q.tab k).image (Q.tab k).lastIdx).bind _ = _
    rw [hinit]
    rfl
  | merge k p q map ihp ihq =>
    intro hp
    obtain ⟨S, hrun, h⟩ := ihp hp.1
    obtain ⟨Q, hqrun, hq⟩ := ihq hp.2.1
    have hfits := hp.2.2 k
    rw [strings, Function.update_self] at hfits
    obtain ⟨t, map', hmerge, hm⟩ := mergeStrtab_spec nextSize junk (h k).rep (hq k).rep hfits map
    refine ⟨S.record k t ((Q.log k).map fun e => (map' e.1, e.2)), ?_, h.update ((h k).merge (hq k) hm)⟩
    rw [run, hrun, hqrun]
    show (mergeStrtab nextSize junk k.format.STR (S.tab k) (Q.tab k).image (Q.tab k).lastIdx map).bind _ = _
    rw [hmerge]
    rfl

end

/-! ## What the log says of the table -/

section
variable {F : StrFormat} {t : StrTab} {log : List (Nat × List UInt8)} {strs : List (List UInt8)}

theorem Holds.denotes (h : Holds F t log strs) {e : Nat × List UInt8} (he : e ∈ log) :
    Denotes F.STR t e.1 e.2 := by
  rcases h.logged e he with hin | ⟨rfl, -⟩
  · exact h.rep.denotes hin
  · obtain ⟨tail, hb⟩ := h.rep.bytes
    refine ⟨h.rep.lastIdx_pos, ?_, List.take_zero⟩
    rw [hb]
    exact F.getLength_null _

theorem Holds.sameIndex (h : Holds F t log strs) {e f : Nat × List UInt8} (he : e ∈ log) (hf : f ∈ log) :
    e.1 = f.1 ↔ e.2 = f.2 := by
  -- a stored string is not at offset 0 and, where the empty array is not stored, not empty
  have hne : ∀ a ∈ entries F strs, a.1 ≠ 0 ∧ (¬ F.Valid [] → a.2 ≠ []) := by
    intro a ha
    have hlow := recordsAt_lower ha
    have hval := h.rep.valid _ (mem_of_record ha)
    exact ⟨by omega, fun hinv hnil => hinv (hnil ▸ hval)⟩
  rcases h.logged e he with hin | ⟨rfl, hinv⟩ <;> rcases h.logged f hf with hin' | ⟨rfl, hinv'⟩
  · constructor
    · intro heq
      have hin : (f.1, e.2) ∈ entries F strs := heq ▸ hin
      exact record_at_unique (encode_pos F) hin hin'
    · intro heq
      have hin : (e.1, f.2) ∈ entries F strs := heq ▸ hin
      exact record_of_unique h.rep.nodup hin hin'
  · exact iff_of_false (hne e hin).1 ((hne e hin).2 hinv')
  · exact iff_of_false (hne f hin').1.symm ((hne f hin').2 hinv).symm
  · exact iff_of_true rfl rfl

theorem Holds.mem_entries_iff (h : Holds F t log strs) (e : Nat × List UInt8) :
    e ∈ entries F strs ↔ e ∈ log ∧ e.1 ≠ 0 := by
  constructor
  · intro he
    have hlow := recordsAt_lower he
    exact ⟨h.stored e he, by omega⟩
  · rintro ⟨he, hne⟩
    exact (h.logged e he).resolve_right fun hz => hne (by rw [hz.1])

end

/-! ## Interning -/

/-- What the callers rely on: indices denote their strings, one index for each string, and the buffer has no others. -/
structure Interns (k : Kind) (S : Session) : Prop where
  denotes : ∀ e ∈ S.log k, Denotes k.format.STR (S.tab k) e.1 e.2
  sameIndex : ∀ e ∈ S.log k, ∀ f ∈ S.log k, (e.1 = f.1 ↔ e.2 = f.2)
  walks : ∃ es, walk k.format.STR (S.tab k) = some es ∧ (es.map Prod.snd).Nodup ∧
    ∀ e, e ∈ es ↔ e ∈ S.log k ∧ e.1 ≠ 0

theorem HoldsAll.interns {S : Session} {strs : Kind → List (List UInt8)} (h : HoldsAll S strs) (k : Kind) :
    Interns k S := by
  refine ⟨fun e he => (h k).denotes he, fun e he f hf => (h k).sameIndex he hf, ?_⟩
  refine ⟨entries k.format (strs k), walk_spec (h k).rep, ?_, (h k).mem_entries_iff⟩
  rw [entries, map_snd_recordsAt]
  exact (h k).rep.nodup

/-- One more operation, any but setting table `k` up anew. -/
inductive Next (k : Kind) : Program → Program → Prop
  | saveNull (p) : Next k p (.saveNull p)
  | saveStr (p s rest) : Next k p (.saveStr p s rest)
  | saveStr2 (p s1 s2 rest1 rest2) : Next k p (.saveStr2 p s1 s2 rest1 rest2)
  | saveStrN (p s rest) : Next k p (.saveStrN p s rest)
  | initializeFrom (k' p q) : k' ≠ k → Next k p (.initializeFrom k' p q)
  | merge (k' p q map) : Next k p (.merge k' p q map)

/-- `p'` continues `p` without setting table `k` up anew. -/
abbrev Continues (k : Kind) : Program → Program → Prop := Relation.ReflTransGen (Next k)

theorem log_record (S : Session) (k k' : Kind) (t : StrTab) (es : List (Nat × List UInt8)) :
    S.log k ⊆ (S.record k' t es).log k := by
  show S.log k ⊆ Function.update S.log k' (es ++ S.log k') k
  by_cases hk : k = k'
  · subst hk
    rw [Function.update_self]
    exact List.subset_append_right _ _
  · rw [Function.update_of_ne hk]
    exact List.Subset.refl _

theorem log_next {nextSize : Nat → Nat} {junk : Nat → Nat → UInt8} {k : Kind} {p p' : Program} (h : Next k p p')
    {S' : Session} (hrun : run nextSize junk p' = some S') :
    ∃ S, run nextSize junk p = some S ∧ S.log k ⊆ S'.log k := by
  cases h <;> simp only [run, Option.bind_eq_bind, Option.bind_eq_some_iff, Option.some.injEq] at hrun
  case initializeFrom k' q hk =>
    obtain ⟨S, hS, Q, -, t, -, rfl⟩ := hrun
    refine ⟨S, hS, ?_⟩
    show S.log k ⊆ Function.update S.log k' (Q.log k') k
    rw [Function.update_of_ne hk.symm]
    exact List.Subset.refl _
  case merge k' q map =>
    obtain ⟨S, hS, Q, -, r, -, rfl⟩ := hrun
    exact ⟨S, hS, log_record S k _ _ _⟩
  all_goals
    obtain ⟨S, hS, r, -, rfl⟩ := hrun
    exact ⟨S, hS, log_record S k _ _ _⟩

theorem log_continues {nextSize : Nat → Nat} {junk : Nat → Nat → UInt8} {k : Kind} {p p' : Program}
    (h : Continues k p p') {S' : Session} (hrun : run nextSize junk p' = some S') :
    ∃ S, run nextSize junk p = some S ∧ S.log k ⊆ S'.log k := by
  induction h generalizing S' with
  | refl => exact ⟨S', hrun, List.Subset.refl _⟩
  | tail _ hnext ih =>
    obtain ⟨S₁, hS₁, hsub⟩ := log_next hnext hrun
    obtain ⟨S, hS, hsub'⟩ := ih hS₁
    exact ⟨S, hS, List.Subset.trans hsub' hsub⟩

/-- Every program within the range runs and leaves tables that intern: an index handed out denotes its string, also
after all further operations up to the next set-up of the table, equal strings have equal indices, the buffer holds
these strings and no others, and a merge maps each old index to the index of the same string. -/
theorem interns_faithfully {nextSize : Nat → Nat} (hnext : ∀ n, 0 < nextSize n) (junk : Nat → Nat → UInt8) :
    (∀ p, WithinRange p → ∃ S, run nextSize junk p = some S ∧ ∀ k, Interns k S) ∧
    (∀ k p p', Continues k p p' → WithinRange p' → ∃ S S', run nextSize junk p = some S ∧
      run nextSize junk p' = some S' ∧ ∀ e ∈ S.log k, Denotes k.format.STR (S'.tab k) e.1 e.2) ∧
    (∀ k p q, WithinRange (.initializeFrom k p q) → ∃ S Q, run nextSize junk (.initializeFrom k p q) = some S ∧
      run nextSize junk q = some Q ∧ ∀ e ∈ Q.log k, Denotes k.format.STR (S.tab k) e.1 e.2) ∧
    ∀ k p q map, WithinRange (.merge k p q map) → ∃ S Q t map', run nextSize junk p = some S ∧
      run nextSize junk q = some Q ∧
      mergeStrtab nextSize junk k.format.STR (S.tab k) (Q.tab k).image (Q.tab k).lastIdx map = some (t, map') ∧
      map' 0 = 0 ∧ (∀ e ∈ Q.log k, Denotes k.format.STR t (map' e.1) e.2) ∧
      ∀ e ∈ Q.log k, ∀ f ∈ S.log k, (map' e.1 = f.1 ↔ e.2 = f.2) := by
  refine ⟨fun p hp => ?_, fun k p p' hcont hp' => ?_, fun k p q hp => ?_, fun k p q map hp => ?_⟩
  · obtain ⟨S, hrun, h⟩ := run_spec nextSize junk hnext p hp
    exact ⟨S, hrun, h.interns⟩
  · obtain ⟨S', hrun', h⟩ := run_spec nextSize junk hnext p' hp'
    obtain ⟨S, hrun, hsub⟩ := log_continues hcont hrun'
    exact ⟨S, S', hrun, hrun', fun e he => (h k).denotes (hsub he)⟩
  · obtain ⟨S, hrun, h⟩ := run_spec nextSize junk hnext _ hp
    obtain ⟨Q, hqrun, hq⟩ := run_spec nextSize junk hnext q hp.2
    refine ⟨S, Q, hrun, hqrun, fun e he => (h k).denotes ?_⟩
    simp only [run, Option.bind_eq_bind, Option.bind_eq_some_iff, Option.some.injEq, hqrun] at hrun
    obtain ⟨S₀, -, _, rfl, t, -, rfl⟩ := hrun
    show e ∈ Function.update S₀.log k (Q.log k) k
    rw [Function.update_self]
    exact he
  · obtain ⟨S, hrun, h⟩ := run_spec nextSize junk hnext p hp.1
    obtain ⟨Q, hqrun, hq⟩ := run_spec nextSize junk hnext q hp.2.1
    have hfits := hp.2.2 k
    rw [strings, Function.update_self] at hfits
    obtain ⟨t, map', hmerge, hm⟩ := mergeStrtab_spec nextSize junk (h k).rep (hq k).rep hfits map
    have hmerged := (h k).merge (hq k) hm
    have hmoved : ∀ e ∈ Q.log k, (map' e.1, e.2) ∈ ((Q.log k).map fun e => (map' e.1, e.2)) ++ S.log k :=
      fun e he => List.mem_append_left _ (List.mem_map.2 ⟨e, he, rfl⟩)
    exact ⟨S, Q, t, map', hrun, hqrun, hmerge, hm.zero, fun e he => hmerged.denotes (hmoved e he),
      fun e he f hf => hmerged.sameIndex (hmoved e he) (List.mem_append_right _ hf)⟩

/-- The next size of the standard library's list of primes. -/
def stlNextSize (n : Nat) : Nat :=
  ([53, 97, 193, 389, 769, 1543, 3079, 6151, 12289, 24593, 49157, 98317, 196613, 393241, 786433].find? (n ≤ ·)).getD
    1572869

theorem stlNextSize_pos (n : Nat) : 0 < stlNextSize n := by
  rw [stlNextSize]
  cases h : List.find? (fun m => decide (n ≤ m)) [53, 97, 193, 389, 769, 1543, 3079, 6151, 12289, 24593, 49157, 98317,
    196613, 393241, 786433] with
  | none => decide
  | some m =>
    have hall : ∀ a ∈ [53, 97, 193, 389, 769, 1543, 3079, 6151, 12289, 24593, 49157, 98317, 196613, 393241, 786433],
      0 < a := by decide
    exact hall m (List.mem_of_find?_eq_some h)

/-- `Save_Str ("a")` into tables of the usual sizes. -/
def savedA : Program := .saveStr (.start 0x1000 1024) ⟨[97], by decide⟩ []

/-- `Save_Str ("b")` and `Save_Str ("a")`. -/
def savedBA : Program :=
  .saveStr (.saveStr (.start 0x1000 1024) ⟨[98], by decide⟩ []) ⟨[97], by decide⟩ []

theorem withinRange_merge : WithinRange (.merge .strtab savedA savedBA fun _ => 7) := by
  simp only [savedA, savedBA, WithinRange, Fits]
  refine ⟨⟨⟨by decide, by decide⟩, ?_⟩, ⟨⟨⟨by decide, by decide⟩, ?_⟩, ?_⟩, ?_⟩ <;> intro k <;> cases k <;> decide

theorem interns_faithfully_merge :
    (∃ S, run stlNextSize (fun _ _ => 0) (.merge .strtab savedA savedBA fun _ => 7) = some S ∧
      ∀ k, Interns k S) ∧
    ∃ S Q t map', run stlNextSize (fun _ _ => 0) savedA = some S ∧ run stlNextSize (fun _ _ => 0) savedBA = some Q ∧
      mergeStrtab stlNextSize (fun _ _ => 0) nullTerminatedString (S.tab .strtab) (Q.tab .strtab).image
        (Q.tab .strtab).lastIdx (fun _ => 7) = some (t, map') ∧ map' 0 = 0 ∧
      (∀ e ∈ Q.log .strtab, Denotes nullTerminatedString t (map' e.1) e.2) ∧
      ∀ e ∈ Q.log .strtab, ∀ f ∈ S.log .strtab, (map' e.1 = f.1 ↔ e.2 = f.2) :=
  ⟨(interns_faithfully stlNextSize_pos fun _ _ => 0).1 _ withinRange_merge,
    (interns_faithfully stlNextSize_pos fun _ _ => 0).2.2.2 .strtab savedA savedBA (fun _ => 7) withinRange_merge⟩

/-- An index handed out before the table is set up from another file need not denote its string any more. -/
theorem index_lost : ¬ ∀ k p q, WithinRange (.initializeFrom k p q) → ∀ S S', run stlNextSize (fun _ _ => 0) p = some S →
    run stlNextSize (fun _ _ => 0) (.initializeFrom k p q) = some S' →
    ∀ e ∈ S.log k, Denotes k.format.STR (S'.tab k) e.1 e.2 := by
  intro h
  have hrange := withinRange_merge
  obtain ⟨S, hS⟩ : ∃ S, run stlNextSize (fun _ _ => 0) savedA = some S := Option.isSome_iff_exists.1 (by decide +kernel)
  obtain ⟨S', hS'⟩ : ∃ S, run stlNextSize (fun _ _ => 0) (.initializeFrom .strtab savedA savedBA) = some S :=
    Option.isSome_iff_exists.1 (by decide +kernel)
  have hlog : (run stlNextSize (fun _ _ => 0) savedA).map (fun S => S.log .strtab) = some [(1, [97])] := by
    decide +kernel
  have hden : (run stlNextSize (fun _ _ => 0) (.initializeFrom .strtab savedA savedBA)).map
      (fun S => decide (Denotes nullTerminatedString (S.tab .strtab) 1 [97])) = some false := by
    decide +kernel
  rw [hS, Option.map_some, Option.some.injEq] at hlog
  rw [hS', Option.map_some, Option.some.injEq, decide_eq_false_iff_not] at hden
  refine hden (h .strtab savedA savedBA ⟨hrange.1, hrange.2.1⟩ S S' hS hS' (1, [97]) ?_)
  rw [hlog]
  exact List.mem_singleton_self _

end Path64.Strtab
