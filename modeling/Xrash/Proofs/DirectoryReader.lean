import Xrash.DirectoryReader

/-!
# The entries of a directory

However the kernel divides the entries of a directory among its answers, they are read one after
the other.
-/

namespace Xrash.DirectoryReader

variable {R : WordRepr 16} {L : DirentLayout}

/-- An entry as the kernel writes it: two numbers, its length, the type if there is one, the name
and what follows it. -/
structure Dirent where
  head : List UInt8
  type : List UInt8
  name : List UInt8
  pad : List UInt8

namespace Dirent

variable (R) (L)

def reclen (e : Dirent) : ℕ := L.offsetName + (e.name.length + 1 + e.pad.length)

def bytes (e : Dirent) : List UInt8 :=
  e.head ++ (R.write (BitVec.ofNat 16 (e.reclen L)) ++ (e.type ++ (e.name ++ 0 :: e.pad)))

/-- The record has its parts where they should be, and a name without a NUL. -/
structure Valid (e : Dirent) : Prop where
  head : e.head.length = L.offsetReclen
  type : L.offsetReclen + 2 + e.type.length = L.offsetName
  name : 0 ∉ e.name
  reclen : e.reclen L < 2 ^ 16

end Dirent

/-- The answers of the kernel, each of whole records. -/
def answers (R : WordRepr 16) (L : DirentLayout) (entries : List (List Dirent)) : Directory :=
  entries.map fun es => some (es.map (Dirent.bytes R L)).flatten

theorem size_short : R.size = 2 := by
  have := R.bits
  omega

variable {e : Dirent}

theorem length_bytes (he : e.Valid L) : (e.bytes R L).length = e.reclen L := by
  have hhead := he.head
  have htype := he.type
  unfold Dirent.bytes Dirent.reclen
  simp only [List.length_append, List.length_cons, R.length_write, size_short]
  omega

theorem entryName_bytes (he : e.Valid L) (rest : List UInt8) :
    entryName L (e.bytes R L ++ rest) = e.name := by
  have hname := he.name
  have hlen : L.offsetName
      = (e.head ++ R.write (BitVec.ofNat 16 (e.reclen L)) ++ e.type).length := by
    rw [List.length_append, List.length_append, R.length_write, size_short, he.head, he.type]
  have hbytes : e.bytes R L = e.head ++ R.write (BitVec.ofNat 16 (e.reclen L)) ++ e.type
      ++ (e.name ++ 0 :: e.pad) := by
    unfold Dirent.bytes
    simp only [List.append_assoc]
  unfold entryName
  rw [hbytes, hlen, List.append_assoc (_ ++ e.type), List.drop_left, List.append_assoc,
    List.takeWhile_append_of_pos fun b hb => decide_eq_true (ne_of_mem_of_not_mem hb hname)]
  exact List.append_nil _

theorem reclen_bytes (he : e.Valid L) (rest : List UInt8) :
    R.readAt (e.bytes R L ++ rest) L.offsetReclen = some (BitVec.ofNat 16 (e.reclen L)) := by
  refine R.readAt_of_at ⟨e.head, e.type ++ (e.name ++ 0 :: e.pad) ++ rest, ?_, he.head.symm⟩
  unfold Dirent.bytes
  simp only [List.append_assoc]

theorem bytes_ne_nil (he : e.Valid L) (rest : List UInt8) : e.bytes R L ++ rest ≠ [] := by
  refine List.append_ne_nil_of_left_ne_nil (List.length_pos_iff.1 ?_) rest
  rw [length_bytes he]
  unfold Dirent.reclen
  omega

/-- A record is popped whole. -/
theorem popEntry_bytes (he : e.Valid L) (rest : List UInt8) (directory : Directory)
    (hitEof : Bool) : popEntry R L ⟨directory, hitEof, e.bytes R L ++ rest⟩
      = some ⟨directory, hitEof, rest⟩ := by
  have hreclen : (BitVec.ofNat 16 (e.reclen L)).toNat = (e.bytes R L).length := by
    rw [BitVec.toNat_ofNat, Nat.mod_eq_of_lt he.reclen, length_bytes he]
  unfold popEntry
  rw [if_neg (bytes_ne_nil he rest), reclen_bytes he]
  dsimp only
  rw [hreclen, if_pos (by rw [List.length_append]; omega), List.drop_left]

theorem getNextEntry_buf (he : e.Valid L) (rest : List UInt8) (directory : Directory)
    (hitEof : Bool) : getNextEntry L ⟨directory, hitEof, e.bytes R L ++ rest⟩
      = (some e.name, ⟨directory, hitEof, e.bytes R L ++ rest⟩) := by
  unfold getNextEntry
  rw [if_neg (bytes_ne_nil he rest)]
  dsimp only
  rw [entryName_bytes he rest]

theorem getNextEntry_answer (he : e.Valid L) (rest : List UInt8) (directory : Directory)
    (hitEof : Bool) : getNextEntry L ⟨some (e.bytes R L ++ rest) :: directory, hitEof, []⟩
      = (some e.name, ⟨directory, hitEof, e.bytes R L ++ rest⟩) := by
  have hname := entryName_bytes (R := R) he rest
  obtain ⟨b, data, hdata⟩ := List.exists_cons_of_ne_nil (bytes_ne_nil (R := R) he rest)
  rw [hdata] at hname ⊢
  show (some (entryName L (b :: data)), _) = _
  rw [hname]

/-- A reader with records in its buffer and answers to come. -/
def reader (R : WordRepr 16) (L : DirentLayout) (hitEof : Bool) (buf : List Dirent)
    (entries : List (List Dirent)) : DirectoryReader :=
  ⟨answers R L entries, hitEof, (buf.map (Dirent.bytes R L)).flatten⟩

/-- All records are valid, and no answer is empty. -/
structure Good (L : DirentLayout) (buf : List Dirent) (entries : List (List Dirent)) : Prop where
  buf : ∀ e ∈ buf, e.Valid L
  entries : ∀ es ∈ entries, es ≠ [] ∧ ∀ e ∈ es, e.Valid L

/-- A call gets the first entry, and popping it leaves the others. -/
theorem getNextEntry_eq (hitEof : Bool) {buf : List Dirent} {entries : List (List Dirent)}
    (hgood : Good L buf entries) : ∃ hitEof' buf' entries',
      ((reader R L hitEof buf entries).getNextEntry L).1
          = ((buf ++ entries.flatten).map Dirent.name)[0]?
        ∧ ((reader R L hitEof buf entries).getNextEntry L).2.popEntry R L
          = some (reader R L hitEof' buf' entries')
        ∧ buf' ++ entries'.flatten = (buf ++ entries.flatten).tail ∧ Good L buf' entries' := by
  rcases buf with _ | ⟨e, buf⟩
  · rcases entries with _ | ⟨es, entries⟩
    · exact ⟨true, [], [], rfl, rfl, rfl, hgood⟩
    · obtain ⟨hne, hes⟩ := hgood.entries es List.mem_cons_self
      obtain ⟨e, es, rfl⟩ := List.exists_cons_of_ne_nil hne
      obtain ⟨he, htail⟩ := List.forall_mem_cons.1 hes
      have hget := getNextEntry_answer (R := R) he ((es.map (Dirent.bytes R L)).flatten)
        (answers R L entries) hitEof
      refine ⟨hitEof, es, entries, congrArg Prod.fst hget, ?_, rfl, htail,
        fun es hmem => hgood.entries es (List.mem_cons_of_mem _ hmem)⟩
      exact (congrArg (fun x => popEntry R L x.2) hget).trans (popEntry_bytes he _ _ _)
  · obtain ⟨he, htail⟩ := List.forall_mem_cons.1 hgood.buf
    have hget := getNextEntry_buf (R := R) he ((buf.map (Dirent.bytes R L)).flatten)
      (answers R L entries) hitEof
    refine ⟨hitEof, buf, entries, congrArg Prod.fst hget, ?_, rfl, htail, hgood.entries⟩
    exact (congrArg (fun x => popEntry R L x.2) hget).trans (popEntry_bytes he _ _ _)

/-- Whatever is in the buffer and however the rest is divided, the calls return the entries one
after the other. -/
theorem call_eq : ∀ (n : ℕ) {hitEof : Bool} {buf : List Dirent} {entries : List (List Dirent)},
    Good L buf entries → call R L n (reader R L hitEof buf entries)
      = some ((buf ++ entries.flatten).map Dirent.name)[n]?
  | 0, hitEof, buf, entries, hgood => by
    obtain ⟨-, -, -, hname, -⟩ := getNextEntry_eq (R := R) hitEof hgood
    exact congrArg some hname
  | n + 1, hitEof, buf, entries, hgood => by
    obtain ⟨hitEof', buf', entries', -, hpop, htail, hgood'⟩ :=
      getNextEntry_eq (R := R) hitEof hgood
    rw [call, hpop, Option.bind_some, call_eq n hgood', htail, List.map_tail, List.getElem?_tail]

/-- However the kernel divides the entries of a directory among its answers, and whatever `hit_eof_`
is in the beginning, the calls return the names of all entries one after the other and then none. -/
theorem call_entries {entries : List (List Dirent)} (hitEof : Bool)
    (hentries : ∀ es ∈ entries, es ≠ [] ∧ ∀ e ∈ es, e.Valid L) (n : ℕ) :
    call R L n (new (answers R L entries) hitEof)
      = some (entries.flatten.map Dirent.name)[n]? :=
  call_eq n ⟨List.forall_mem_nil _, hentries⟩

/-- Two answers, the first with two entries, whose records have a type or not. -/
def threeEntries (type : List UInt8) : List (List Dirent) :=
  [[⟨List.replicate 16 0, type, [46], [0]⟩, ⟨List.replicate 16 1, type, [46, 46], []⟩],
    [⟨List.replicate 16 2, type, [97], []⟩]]

theorem threeEntries_valid {type : List UInt8} (hreclen : L.offsetReclen = 16)
    (hname : 18 + type.length = L.offsetName) (hlt : L.offsetName < 2 ^ 8) :
    ∀ es ∈ threeEntries type, es ≠ [] ∧ ∀ e ∈ es, e.Valid L := by
  have hvalid : ∀ {head name pad : List UInt8}, head.length = 16 → 0 ∉ name →
      name.length + pad.length < 2 ^ 8 → Dirent.Valid L ⟨head, type, name, pad⟩ := by
    intro head name pad hhead hzero hlen
    refine ⟨hhead.trans hreclen.symm, by rw [hreclen, hname], hzero, ?_⟩
    simp only [Dirent.reclen]
    omega
  simp [threeEntries, hvalid]

theorem call_entries_three :
    call (LittleEndian.repr 2) (.dirent 8) 2
        (new (answers (LittleEndian.repr 2) (.dirent 8) (threeEntries [])) true) = some (some [97])
      ∧ call (LittleEndian.repr 2) .dirent64 2
        (new (answers (LittleEndian.repr 2) .dirent64 (threeEntries [4])) true)
          = some (some [97]) :=
  ⟨call_entries true (threeEntries_valid rfl rfl (by decide)) 2,
    call_entries true (threeEntries_valid rfl rfl (by decide)) 2⟩

end Xrash.DirectoryReader
