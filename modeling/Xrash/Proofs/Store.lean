import Xrash.Store
import Xrash.Proofs.TextFile
import Xrash.Proofs.ReadBack

/-!
# The symbol store

Every tree the copy loop leaves has its directories at the first two levels and its files at the
third, so no later command finds a file where it needs a directory, and each file of a supply is
deposited at a path of its own. What a run leaves is therefore a set of deposits, whatever the
order of the listing, unless it comes upon a file with a chunk that it cannot decode.
-/

namespace Xrash

open Py FileTree

/-! ## Operands -/

theorem splitOn_storeDir {name id : Str} (hn : '/' ∉ name) (hi : '/' ∉ id) :
    (storeDir name id).splitOn '/' = ["sym".toList, name, id, []] := by
  have h : storeDir name id = ['/'].intercalate ["sym".toList, name, id, []] := by
    have hsym : "sym/".toList = "sym".toList ++ ['/'] := by decide
    unfold storeDir
    rw [hsym]
    simp only [List.intercalate_cons_cons, List.intercalate_singleton, List.append_assoc,
      List.singleton_append, List.append_nil]
  rw [h, List.splitOn_intercalate]
  · simp [hn, hi]
  · simp

theorem storePath_storeDir {name id : Str} (hn : Component name) (hi : Component id) :
    storePath (storeDir name id) = some [name, id] := by
  unfold storePath
  rw [splitOn_storeDir hn.2.2.2 hi.2.2.2]
  have hcomp : ∀ c ∈ [name, id, []].dropLast, Component c := by
    simp only [List.dropLast_cons_cons, List.dropLast_singleton, List.mem_cons, List.not_mem_nil,
      or_false, forall_eq_or_imp, forall_eq]
    exact ⟨hn, hi⟩
  exact if_pos ⟨rfl, rfl, hcomp⟩

/-! ## Commands -/

section Commands

variable {other : Str → WorkDir → CompletedProcess × WorkDir} {w : WorkDir} {name id : Str}

theorem argv_mkdir (h : Shell.Inert (storeDir name id)) :
    Shell.argv (Command.mkdir (storeDir name id)).text
      = .ok ["mkdir".toList, "-p".toList, storeDir name id] := by
  have hn : (Command.mkdir (storeDir name id)).Named := trivial
  exact (Command.argv_text hn).2 ((inert_mkdir _).2 h)

theorem argv_cp {sym : Str} (hs : Shell.Inert sym) (h : Shell.Inert (storeDir name id)) :
    Shell.argv (Command.cp sym (storeDir name id)).text
      = .ok ["cp".toList, sym, storeDir name id] := by
  have hn : (Command.cp sym (storeDir name id)).Named := trivial
  exact (Command.argv_text hn).2 ((inert_cp _ _).2 ⟨hs, h⟩)

/-- What the shell does with three words, the last a directory of the store. -/
theorem shell_eq {text cmd a b : Str} {q : List Str} (ht : Shell.argv text = .ok [cmd, a, b])
    (hq : storePath b = some q) :
    w.shell other text = if cmd = "mkdir".toList ∧ a = "-p".toList then w.mkdir q
      else if cmd = "cp".toList ∧ a.head? ≠ some '-' ∧ '/' ∉ a then w.cp a q
      else other text w := by
  unfold WorkDir.shell
  rw [ht]
  simp only [hq]

theorem shell_mkdir (hn : Component name) (hi : Component id)
    (h : Shell.Inert (storeDir name id)) :
    w.shell other (Command.mkdir (storeDir name id)).text = w.mkdir [name, id] := by
  rw [shell_eq (argv_mkdir h) (storePath_storeDir hn hi)]
  exact if_pos ⟨rfl, rfl⟩

theorem shell_cp {sym : Str} (hn : Component name) (hi : Component id)
    (h : Shell.Inert (storeDir name id)) (hs : Shell.Inert sym) (hdash : sym.head? ≠ some '-')
    (hslash : '/' ∉ sym) :
    w.shell other (Command.cp sym (storeDir name id)).text = w.cp sym [name, id] := by
  have hcp : ¬ ("cp".toList = "mkdir".toList ∧ sym = "-p".toList) := fun h => absurd h.1 (by decide)
  rw [shell_eq (argv_cp hs h) (storePath_storeDir hn hi), if_neg hcp]
  exact if_pos ⟨rfl, hdash, hslash⟩

end Commands

/-! ## Runs -/

section Runs

variable {other : Str → WorkDir → CompletedProcess × WorkDir} {files : Str → Option Bytes}
  {dir : List FileName} {T : FileTree Str Bytes}

theorem runAll_cons {σ : Type} {h : Host σ} {c : Command} {t : Trace σ} (cs : List Command)
    (h0 : Char.ofNat 0 ∉ c.text) (h1 : (h.shell c.text t.world).1.returncode = 0) :
    (runAll h (c :: cs)).run t
      = (runAll h cs).run ⟨t.out, t.calls ++ [c], (h.shell c.text t.world).2⟩ := by
  rw [runAll, EStateM.run_bind, subprocessRun_ok h0 h1]

theorem workHost_files {w : WorkDir} {s : Str} {content : Bytes} (h : w.files s = some content) :
    (workHost other dir).files s w = some (.ofBytes content) := by
  show (w.files s).map _ = _
  rw [h]
  rfl

/-- A safe file is deposited in a tree with nothing in its way, if it can be decoded. -/
theorem copySym_safe {f : SymFile} (hf : f.Safe) (hl : Legible f.content)
    (hc : files f.name.chars = some f.content) (hT : Levelled 2 T) (out : List Str)
    (calls : List Command) :
    (copySym (workHost other dir) f.name.chars).run ⟨out, calls, ⟨files, T⟩⟩
      = .ok () ⟨out, calls ++ lineCommands f.name.chars f.line,
        ⟨files, T.deposited f.deposit.toList⟩⟩ := by
  rw [copySym_run (workHost_files hc) (hl.readline_eq f.content_line)]
  unfold lineCommands SymFile.deposit
  rcases hp : placeOf f.line with _ | ⟨name, id⟩
  · simp [placeCommands, runAll, deposited]
  · obtain ⟨hn, hi, hd, hs, hdash⟩ := hf name id hp
    have hlen : [name, id].length = 2 := rfl
    have hmk : (workHost other dir).shell (Command.mkdir (storeDir name id)).text ⟨files, T⟩
        = (⟨0, []⟩, ⟨files, T.withDirs [name, id]⟩) := by
      show WorkDir.shell other _ _ = _
      rw [shell_mkdir hn hi hd, WorkDir.mkdir, hT.mkdirs_eq hlen]
      rfl
    have hput := hT.put_eq (d := ⟨[name, id], f.name.chars, f.content⟩) hlen
    have hcp : (workHost other dir).shell (Command.cp f.name.chars (storeDir name id)).text
        ⟨files, T.withDirs [name, id]⟩
        = (⟨0, []⟩, ⟨files, T.withFile ⟨[name, id], f.name.chars, f.content⟩⟩) := by
      show WorkDir.shell other _ _ = _
      rw [shell_cp hn hi hd hs hdash f.name.noSlash, WorkDir.cp]
      simp only [hc]
      rw [hput]
      rfl
    have h0 := Command.noNul ((inert_mkdir _).2 hd)
    have h1 := Command.noNul ((inert_cp _ _).2 ⟨hs, hd⟩)
    rw [placeCommands, runAll_cons _ h0 (by rw [hmk]), hmk, runAll_cons _ h1 (by rw [hcp]), hcp,
      runAll]
    simp [deposited]

theorem deposit_length {f : SymFile} {d : Deposit Str Bytes} (hd : f.deposit = some d) :
    d.dir.length = 2 := by
  obtain ⟨⟨name, id⟩, -, rfl⟩ := Option.map_eq_some_iff.1 hd
  rfl

/-- The copy loop deposits safe files one after the other, up to the first that it cannot decode. -/
theorem copySyms_safe (other : Str → WorkDir → CompletedProcess × WorkDir)
    (dir : List FileName) : ∀ (fs : List SymFile), (∀ f ∈ fs, f.Safe) →
    (∀ f ∈ fs, files f.name.chars = some f.content) → ∀ {T : FileTree Str Bytes}, Levelled 2 T →
    ∀ out calls, ∃ p calls', p <+: fs ∧ ((p = fs ∧ (∀ f ∈ fs, Legible f.content)
        ∧ ((fs.map (·.name.chars)).forM (copySym (workHost other dir))).run ⟨out, calls, ⟨files, T⟩⟩
          = .ok () ⟨out, calls', ⟨files, T.deposited (p.filterMap (·.deposit))⟩⟩)
      ∨ ((∃ f ∈ fs, ¬ Legible f.content)
        ∧ ((fs.map (·.name.chars)).forM (copySym (workHost other dir))).run ⟨out, calls, ⟨files, T⟩⟩
          = .error .unicodeDecodeError
            ⟨out, calls', ⟨files, T.deposited (p.filterMap (·.deposit))⟩⟩))
  | [], _, _, T, _, out, calls => ⟨[], calls, List.prefix_refl _, .inl ⟨rfl, by simp, rfl⟩⟩
  | f :: fs, hs, hc, T, hT, out, calls => by
    have hcf := hc f List.mem_cons_self
    simp only [List.map_cons, List.forM_eq_forM, List.forM_cons, EStateM.run_bind]
    by_cases hl : Legible f.content
    · have hdep : ∀ d ∈ f.deposit.toList, d.dir.length = 2 := fun d hd =>
        deposit_length (Option.mem_toList.1 hd)
      obtain ⟨p, calls', hp, ih⟩ := copySyms_safe other dir fs
        (fun f hf => hs f (List.mem_cons_of_mem _ hf))
        (fun f hf => hc f (List.mem_cons_of_mem _ hf)) (hT.deposited hdep) out
        (calls ++ lineCommands f.name.chars f.line)
      have hfold : (T.deposited f.deposit.toList).deposited (p.filterMap (·.deposit))
          = T.deposited ((f :: p).filterMap (·.deposit)) := by
        rcases hd : f.deposit with _ | d <;> simp [hd, deposited]
      rw [hfold] at ih
      rw [copySym_safe (hs f List.mem_cons_self) hl hcf hT]
      refine ⟨f :: p, calls', List.cons_prefix_cons.2 ⟨rfl, hp⟩, ?_⟩
      rcases ih with ⟨rfl, hall, hrun⟩ | ⟨⟨g, hg, hbad⟩, hrun⟩
      · exact .inl ⟨rfl, List.forall_mem_cons.2 ⟨hl, hall⟩, hrun⟩
      · exact .inr ⟨⟨g, List.mem_cons_of_mem _ hg, hbad⟩, hrun⟩
    · rw [copySym_undecoded (workHost_files hcf) (readline_eq_none hl)]
      exact ⟨[], calls, List.nil_prefix, .inr ⟨⟨f, List.mem_cons_self, hl⟩, rfl⟩⟩

theorem copyRun_of_syms {names : List Str} (h : syms dir = names) : copyRun other files dir T
    = (names.forM (copySym (workHost other dir))).run ⟨[], [], ⟨files, T⟩⟩ := by
  subst h
  rfl

end Runs

/-! ## Supplies -/

/-- A list that has the names of some values, in any order, names them in that order. -/
theorem exists_perm_of_map_perm {α β : Type} {g : β → α} {l : List α} {ys : List β}
    (h : l.Perm (ys.map g)) : ∃ zs : List β, zs.Perm ys ∧ l = zs.map g := by
  have hall : List.Forall₂ (fun a b => a = g b) (ys.map g) ys := by
    rw [List.forall₂_map_left_iff, List.forall₂_same]
    exact fun _ _ => rfl
  obtain ⟨zs, hzs, hperm⟩ := List.perm_comp_forall₂ h hall
  exact ⟨zs, hperm, by rwa [← List.forall₂_eq_eq_eq, List.forall₂_map_right_iff]⟩

/-- The script goes through the files whose names are the entries in `.sym`, in the order of the
listing. -/
theorem syms_of_listed {β : Type} {name : β → FileName} {fs : List β} {dir : List FileName}
    (hd : dir.Nodup) (hn : (fs.map fun f => (name f).chars).Nodup)
    (h : ∀ e : FileName, e ∈ dir ∧ ".sym".toList <:+ e.chars ↔ ∃ f ∈ fs, name f = e) :
    ∃ gs : List β, gs.Perm fs ∧ syms dir = gs.map fun f => (name f).chars := by
  have hinj : Function.Injective fun e : FileName => e.chars := by
    rintro ⟨⟨a, _⟩, _, _⟩ ⟨⟨b, _⟩, _, _⟩ hab
    cases hab
    rfl
  refine exists_perm_of_map_perm ?_
  refine (List.perm_ext_iff_of_nodup ((hd.map hinj).filter _) hn).2 fun s => ?_
  simp only [List.mem_filter, List.mem_map, decide_eq_true_eq]
  constructor
  · rintro ⟨⟨e, he, rfl⟩, hsuff⟩
    obtain ⟨f, hf, rfl⟩ := (h e).1 ⟨he, hsuff⟩
    exact ⟨f, hf, rfl⟩
  · rintro ⟨f, hf, rfl⟩
    obtain ⟨he, hsuff⟩ := (h (name f)).2 ⟨f, hf, rfl⟩
    exact ⟨⟨name f, he, rfl⟩, hsuff⟩

namespace Supply

variable (F : Supply)

def deposits : List (Deposit Str Bytes) := F.files.filterMap (·.deposit)

theorem deposits_length : ∀ d ∈ F.deposits, d.dir.length = 2 := by
  intro d hd
  obtain ⟨f, -, hf⟩ := List.mem_filterMap.1 hd
  exact deposit_length hf

theorem deposit_leaf {f : SymFile} {d : Deposit Str Bytes} (hd : f.deposit = some d) :
    d.leaf = f.name.chars := by
  obtain ⟨⟨name, id⟩, -, rfl⟩ := Option.map_eq_some_iff.1 hd
  rfl

theorem leaves_sublist : ∀ fs : List SymFile,
    ((fs.filterMap (·.deposit)).map (·.leaf)).Sublist (fs.map (·.name.chars))
  | [] => List.Sublist.refl _
  | f :: fs => by
    have ih := leaves_sublist fs
    rcases hd : f.deposit with _ | d
    · rw [List.filterMap_cons_none hd, List.map_cons]
      exact ih.cons _
    · rw [List.filterMap_cons_some hd, List.map_cons, List.map_cons, deposit_leaf hd]
      exact ih.cons_cons _

/-- The files go to paths of their own, as their names differ. -/
theorem deposits_nodup : (F.deposits.map (·.path)).Nodup := by
  refine List.Nodup.of_map List.getLast? ?_
  have hlast : (F.deposits.map (·.path)).map List.getLast?
      = (F.deposits.map (·.leaf)).map some := by
    simp [Deposit.path]
  rw [hlast]
  exact ((F.names_nodup.sublist (leaves_sublist F.files))).map (Option.some_injective _)

variable {F} {files : Str → Option Bytes} {dir : List FileName} {T : FileTree Str Bytes}

/-- The script goes through the files of the supply, in the order of the listing. -/
theorem In.syms_eq (h : F.In files dir) :
    ∃ fs : List SymFile, fs.Perm F.files ∧ syms dir = fs.map (·.name.chars) :=
  syms_of_listed h.dir_nodup F.names_nodup h.listed

/-- A run of the copy loop deposits what it comes upon before the first file that it cannot
decode. -/
theorem copyRun_cases (other : Str → WorkDir → CompletedProcess × WorkDir) (h : F.In files dir)
    (hT : Levelled 2 T) : ∃ calls, ((∀ f ∈ F.files, Legible f.content)
        ∧ copyRun other files dir T = .ok () ⟨[], calls, ⟨files, T.deposited F.deposits⟩⟩)
      ∨ (∃ f ∈ F.files, ¬ Legible f.content) ∧ ∃ ds, (∀ d ∈ ds, d ∈ F.deposits)
        ∧ copyRun other files dir T
          = .error .unicodeDecodeError ⟨[], calls, ⟨files, T.deposited ds⟩⟩ := by
  obtain ⟨fs, hperm, hlist⟩ := h.syms_eq
  obtain ⟨p, calls, hp, hrun⟩ := copySyms_safe other dir fs
    (fun f hf => F.safe f (hperm.subset hf)) (fun f hf => h.content f (hperm.subset hf)) hT [] []
  rw [copyRun_of_syms hlist]
  refine ⟨calls, ?_⟩
  rcases hrun with ⟨rfl, hall, hrun⟩ | ⟨⟨f, hf, hbad⟩, hrun⟩
  · have hdep : T.deposited (p.filterMap (·.deposit)) = T.deposited F.deposits :=
      (deposited_perm F.deposits_length F.deposits_nodup (hperm.filterMap _).symm T).symm
    rw [hdep] at hrun
    exact .inl ⟨fun f hf => hall f (hperm.mem_iff.2 hf), hrun⟩
  · refine .inr ⟨⟨f, hperm.subset hf, hbad⟩, _, fun d hd => ?_, hrun⟩
    obtain ⟨g, hg, hgd⟩ := List.mem_filterMap.1 hd
    exact List.mem_filterMap.2 ⟨g, hperm.subset (hp.subset hg), hgd⟩

/-- A run of the copy loop deposits a supply that it can decode, whatever the order of the
listing. -/
theorem copyRun_eq (other : Str → WorkDir → CompletedProcess × WorkDir) (h : F.In files dir)
    (hl : ∀ f ∈ F.files, Legible f.content) (hT : Levelled 2 T) :
    ∃ calls, copyRun other files dir T = .ok () ⟨[], calls, ⟨files, T.deposited F.deposits⟩⟩ := by
  obtain ⟨calls, ⟨-, hrun⟩ | ⟨⟨f, hf, hbad⟩, -⟩⟩ := copyRun_cases other h hT
  · exact ⟨calls, hrun⟩
  · exact absurd (hl f hf) hbad

end Supply

/-- Every tree that runs leave has its files and directories at levels of their own. -/
theorem Left.levelled {other : Str → WorkDir → CompletedProcess × WorkDir}
    {T : FileTree Str Bytes} (h : Left other T) : Levelled 2 T := by
  induction h with
  | none => exact levelled_empty
  | @run T F files dir h hF ih =>
    obtain ⟨calls, ⟨-, hrun⟩ | ⟨-, ds, hds, hrun⟩⟩ := Supply.copyRun_cases other hF ih
    · rw [hrun]
      exact ih.deposited F.deposits_length
    · rw [hrun]
      exact ih.deposited fun d hd => F.deposits_length d (hds d hd)

namespace Supply

variable {F : Supply}

theorem stored_of_legible (hl : ∀ f ∈ F.files, Legible f.content) : F.Stored := by
  intro other files T hT
  have hlev := hT.levelled
  have hlen := F.deposits_length
  have hat := deposited_apply hlen F.deposits_nodup T
  have hmem : ∀ f ∈ F.files, ∀ name id, placeOf f.line = some (name, id) →
      ⟨[name, id], f.name.chars, f.content⟩ ∈ F.deposits := fun f hf name id hp =>
    List.mem_filterMap.2 ⟨f, hf, by rw [SymFile.deposit, hp]; rfl⟩
  refine ⟨T.deposited F.deposits, fun dir h => ⟨copyRun_eq other h hl hlev, ?_⟩,
    fun f hf name id hp => ⟨(hat _).1 _ (hmem f hf name id hp) rfl, fun p hpre => ?_⟩,
    fun p hp => ?_, fun f hf g hg hne name id name' id' heq => ?_⟩
  · have := copyRun_eq other h hl (hlev.deposited hlen)
    rwa [deposited_again hlen F.deposits_nodup] at this
  · refine (hat p).2.1 (fun d hd hdp => ?_) ⟨_, hmem f hf name id hp, hpre⟩
    have hle := hpre.length_le
    rw [← hdp, length_path (hlen d hd)] at hle
    simp at hle
  · refine (hat p).2.2 (fun d hd hdp => ?_) (fun d hd hpre => ?_)
    all_goals
      obtain ⟨f, hf, hfd⟩ := List.mem_filterMap.1 hd
      obtain ⟨⟨name, id⟩, hplace, rfl⟩ := Option.map_eq_some_iff.1 hfd
    · exact (hp f hf name id hplace).1 hdp.symm
    · exact (hp f hf name id hplace).2 hpre
  · simp only [List.cons.injEq, and_true] at heq
    exact hne (List.inj_on_of_nodup_map F.names_nodup hf hg heq.2.2)

/-- The files of a directory with nothing but the supply. -/
def contents (F : Supply) (s : Str) : Option Bytes :=
  (F.files.find? fun f => f.name.chars = s).map (·.content)

theorem in_contents {dir : List FileName} (h : dir.Perm (F.files.map (·.name))) :
    F.In F.contents dir where
  content := by
    intro f hf
    have hsome : (F.files.find? fun g => g.name.chars = f.name.chars).isSome :=
      List.find?_isSome.2 ⟨f, hf, by simp⟩
    obtain ⟨g, hg⟩ := Option.isSome_iff_exists.1 hsome
    have hname : g.name.chars = f.name.chars := by simpa using List.find?_some hg
    obtain rfl := List.inj_on_of_nodup_map F.names_nodup (List.mem_of_find?_eq_some hg) hf hname
    rw [contents, hg]
    rfl
  dir_nodup := by
    refine h.nodup_iff.2 (List.Nodup.of_map (·.chars) ?_)
    rw [List.map_map]
    exact F.names_nodup
  listed := by
    intro e
    rw [h.mem_iff, List.mem_map]
    refine ⟨fun he => he.1, fun he => ⟨he, ?_⟩⟩
    obtain ⟨f, -, rfl⟩ := he
    exact f.isSym

theorem Stored.legible (h : F.Stored) : ∀ f ∈ F.files, Legible f.content := by
  let other : Str → WorkDir → CompletedProcess × WorkDir := fun _ w => (⟨1, []⟩, w)
  have hin := F.in_contents (List.Perm.refl _)
  obtain ⟨S, hrun, -⟩ := h other F.contents FileTree.empty .none
  obtain ⟨⟨calls, hok⟩, -⟩ := hrun _ hin
  obtain ⟨calls', ⟨hl, -⟩ | ⟨-, ds, -, herr⟩⟩ := copyRun_cases other hin levelled_empty
  · exact hl
  · rw [hok] at herr
    cases herr

end Supply

/-- The copy loop stores a supply exactly when it can decode every file of it as far as `readline`
does. -/
theorem supply_stored_iff (F : Supply) : F.Stored ↔ ∀ f ∈ F.files, Legible f.content :=
  ⟨Supply.Stored.legible, Supply.stored_of_legible⟩

/-- The bytes of a text in ASCII. -/
def ascii (s : String) : Bytes := s.toList.map fun c => UInt8.ofNat c.toNat

/-- `crash.sym`, of one build. -/
def crashSym : SymFile where
  name :=
    { chars := "crash.sym".toList
      noNul := by decide
      ne := by decide
      noSlash := by decide }
  content := ascii "MODULE Linux x86_64 1A crash\nFUNC 0 4 0 main\n"
  line := "MODULE Linux x86_64 1A crash\n".toList
  isSym := by decide
  content_line := ⟨29, _, .start, by rfl, .inl (by decide), by decide⟩

/-- `crash2.sym`, of another. -/
def crashSym2 : SymFile where
  name :=
    { chars := "crash2.sym".toList
      noNul := by decide
      ne := by decide
      noSlash := by decide }
  content := ascii "MODULE Linux x86_64 2B crash\nFUNC 0 4 0 main\n"
  line := "MODULE Linux x86_64 2B crash\n".toList
  isSym := by decide
  content_line := ⟨29, _, .start, by rfl, .inl (by decide), by decide⟩

/-- Another `crash2.sym`, with a source file whose name is not in UTF-8. -/
def latinSym : SymFile where
  name := crashSym2.name
  content := ascii "MODULE Linux x86_64 2B crash\nFILE 0 " ++ 0xE9 :: ascii ".c\n"
  line := "MODULE Linux x86_64 2B crash\n".toList
  isSym := by decide
  content_line := ⟨29, _, .start, by rfl, .inl (by decide), by decide⟩

theorem safe_of_place {f : SymFile} {name id : Str} (hp : placeOf f.line = some (name, id))
    (h : Component name ∧ Component id ∧ Shell.Inert (storeDir name id)
      ∧ Shell.Inert f.name.chars ∧ f.name.chars.head? ≠ some '-') : f.Safe := by
  intro name' id' hp'
  obtain ⟨rfl, rfl⟩ := Prod.mk.inj (Option.some.inj (hp.symm.trans hp'))
  exact h

theorem place_crashSym : placeOf crashSym.line = some ("crash".toList, "1A".toList) := by decide

theorem place_crashSym2 : placeOf crashSym2.line = some ("crash".toList, "2B".toList) := by decide

theorem inert_crash2 : Shell.Inert "crash2.sym".toList :=
  Shell.inert_of_ordinary (by simp) (by simp [Shell.Ordinary])

theorem inert_build2 : Shell.Inert (storeDir "crash".toList "2B".toList) := by
  have h : storeDir "crash".toList "2B".toList = "sym/crash/2B/".toList := by decide
  rw [h]
  exact Shell.inert_of_ordinary (by simp) (by simp [Shell.Ordinary])

theorem safe_crashSym : crashSym.Safe := by
  have h : storeDir "crash".toList "1A".toList = "sym/crash/1A/".toList := by decide
  refine safe_of_place place_crashSym ⟨by decide, by decide, ?_, ?_, by decide⟩
  · rw [h]
    exact Shell.inert_of_ordinary (by simp) (by simp [Shell.Ordinary])
  · show Shell.Inert "crash.sym".toList
    exact Shell.inert_of_ordinary (by simp) (by simp [Shell.Ordinary])

def crashSupply : Supply where
  files := [crashSym, crashSym2]
  names_nodup := by decide
  safe := List.forall_mem_cons.2 ⟨safe_crashSym,
    List.forall_mem_singleton.2 (safe_of_place place_crashSym2
      ⟨by decide, by decide, inert_build2, inert_crash2, by decide⟩)⟩

def latinSupply : Supply where
  files := [crashSym, latinSym]
  names_nodup := by decide
  safe := List.forall_mem_cons.2 ⟨safe_crashSym,
    List.forall_mem_singleton.2 (safe_of_place (f := latinSym) place_crashSym2
      ⟨by decide, by decide, inert_build2, inert_crash2, by decide⟩)⟩

theorem legible_crashSym : Legible crashSym.content :=
  legible_of_short (s := "MODULE Linux x86_64 1A crash\nFUNC 0 4 0 main\n".toList) (by decide) rfl
    (.inl (by decide))

theorem legible_crashSym2 : Legible crashSym2.content :=
  legible_of_short (s := "MODULE Linux x86_64 2B crash\nFUNC 0 4 0 main\n".toList) (by decide) rfl
    (.inl (by decide))

theorem not_legible_latinSym : ¬ Legible latinSym.content :=
  not_legible_of_short (by decide) (by decide) (by decide)

/-- Two builds of a module, listed in either order, and then stored once more. -/
theorem supply_stored_iff_crash : ∃ S : FileTree Str Bytes,
    (∀ dir ∈ [[crashSym.name, crashSym2.name], [crashSym2.name, crashSym.name]],
      ∀ T ∈ [FileTree.empty, S], ∃ calls,
        copyRun (fun _ w => (⟨1, []⟩, w)) crashSupply.contents dir T
          = .ok () ⟨[], calls, ⟨crashSupply.contents, S⟩⟩)
      ∧ S ["crash".toList, "1A".toList, "crash.sym".toList] = some (.file crashSym.content)
      ∧ S ["crash".toList, "2B".toList, "crash2.sym".toList] = some (.file crashSym2.content) := by
  have hl : ∀ f ∈ crashSupply.files, Legible f.content :=
    List.forall_mem_cons.2 ⟨legible_crashSym, List.forall_mem_singleton.2 legible_crashSym2⟩
  obtain ⟨S, hrun, hplaced, -⟩ := (supply_stored_iff crashSupply).2 hl (fun _ w => (⟨1, []⟩, w))
    crashSupply.contents FileTree.empty .none
  have hin : ∀ dir ∈ [[crashSym.name, crashSym2.name], [crashSym2.name, crashSym.name]],
      crashSupply.In crashSupply.contents dir := by
    exact List.forall_mem_cons.2 ⟨Supply.in_contents (List.Perm.refl _),
      List.forall_mem_singleton.2 (Supply.in_contents (List.Perm.swap ..))⟩
  refine ⟨S, fun dir hdir => ?_, (hplaced crashSym List.mem_cons_self _ _ place_crashSym).1,
    (hplaced crashSym2 (List.mem_cons_of_mem _ List.mem_cons_self) _ _ place_crashSym2).1⟩
  exact List.forall_mem_cons.2 ⟨(hrun dir (hin dir hdir)).1,
    List.forall_mem_singleton.2 (hrun dir (hin dir hdir)).2⟩

/-- The order of the listing decides whether the first build is stored. -/
theorem latinSupply_not_stored : ¬ latinSupply.Stored
    ∧ ∀ other, (∃ t, copyRun other latinSupply.contents [crashSym.name, latinSym.name]
          FileTree.empty = .error .unicodeDecodeError t
        ∧ t.world.sym ["crash".toList, "1A".toList, "crash.sym".toList]
          = some (.file crashSym.content))
      ∧ ∃ t, copyRun other latinSupply.contents [latinSym.name, crashSym.name]
          FileTree.empty = .error .unicodeDecodeError t
        ∧ t.world.sym ["crash".toList, "1A".toList, "crash.sym".toList] = none := by
  have hlatin : latinSupply.contents latinSym.name.chars = some latinSym.content := by rfl
  have hcrash : latinSupply.contents crashSym.name.chars = some crashSym.content := by rfl
  refine ⟨fun h => not_legible_latinSym
    (h.legible latinSym (List.mem_cons_of_mem _ List.mem_cons_self)), fun other => ⟨?_, ?_⟩⟩
  · have hsyms : syms [crashSym.name, latinSym.name]
        = [crashSym.name.chars, latinSym.name.chars] := by decide
    rw [copyRun_of_syms hsyms]
    simp only [List.forM_eq_forM, List.forM_cons, EStateM.run_bind]
    rw [copySym_safe safe_crashSym legible_crashSym hcrash levelled_empty]
    simp only []
    rw [copySym_undecoded (workHost_files hlatin) (readline_eq_none not_legible_latinSym)]
    exact ⟨_, rfl, rfl⟩
  · have hsyms : syms [latinSym.name, crashSym.name]
        = [latinSym.name.chars, crashSym.name.chars] := by decide
    rw [copyRun_of_syms hsyms]
    simp only [List.forM_eq_forM, List.forM_cons, EStateM.run_bind]
    rw [copySym_undecoded (workHost_files hlatin) (readline_eq_none not_legible_latinSym)]
    exact ⟨_, rfl, rfl⟩

end Xrash
