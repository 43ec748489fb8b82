import Dawgs.Lib.Lists
import Dawgs.Ref.ArchiveTar

/-!
# What unpacking writes, and where

Three things carry the argument. A sanitized path is a list of plain names,
none of them `..`, so cleaning it behind the output directory appends it: the
place of every entry extends the output directory. A file is only created
where nothing was, so a turn of the loop lets everything stand that was there
(`Grows`). And the loop records what it writes: below the output directory,
which starts empty, there are no files but the recorded ones (`Records`).

The check of a collection compares sanitized paths, and looks the integrity of
a fragment up under the path as the manifest has it. The two may differ, and
then the lookup finds nothing and no checksum is right. So every path of the
manifest is itself the path of a file. They are as many as the sanitized ones
and no two are equal, which leaves no file over.
-/

namespace Dawgs.Ref.Tar

open Lib List Option Prod Except

/-! ## Paths -/

/-- A name that leads one level down. -/
def Plain (part : Text) : Prop := part ≠ [] ∧ part ≠ dot ∧ part ≠ dotDot ∧ slash ∉ part

theorem foldl_cleanStep {rooted : Bool} {parts : List Text}
    (h : dotDot ∉ parts) (done : List Text) :
    parts.foldl (cleanStep rooted) done =
      done ++ parts.filter fun part => part ≠ [] ∧ part ≠ dot := by
  induction parts generalizing done with
  | nil => simp
  | cons part parts ih =>
    have hne : part ≠ dotDot := fun he => h (he ▸ mem_cons_self)
    rw [foldl_cons, ih fun hm => h (mem_cons_of_mem _ hm)]
    by_cases hp : part = [] ∨ part = dot
    · rw [cleanStep, if_pos hp, filter_cons_of_neg]
      simpa [imp_iff_not_or] using hp
    · rw [cleanStep, if_neg hp, if_neg hne, filter_cons_of_pos, append_assoc]
      · rfl
      · simpa using not_or.mp hp

theorem resolve_append {parts : List Text} (h : ∀ part ∈ parts, Plain part)
    (outputDir : List Text) : resolve (outputDir ++ parts) = resolve outputDir ++ parts := by
  rw [resolve, foldl_append, foldl_cleanStep fun hm => (h _ hm).2.2.1 rfl, filter_eq_self.mpr]
  · rfl
  · intro part hm
    simp [(h part hm).1, (h part hm).2.1]

theorem slash_not_mem_splitOn {t part : Text} (h : part ∈ t.splitOn slash) : slash ∉ part := by
  induction t generalizing part with
  | nil =>
    obtain rfl : part = [] := by simpa [splitOn_nil] using h
    exact not_mem_nil
  | cons c t ih =>
    rw [splitOn_cons_eq_if_modifyHead] at h
    split at h
    · rcases mem_cons.mp h with rfl | hm
      · exact not_mem_nil
      · exact ih hm
    next hc =>
      cases hs : t.splitOn slash with
      | nil => exact absurd hs (splitOn_ne_nil _ _)
      | cons first rest =>
        rw [hs] at h
        rcases mem_cons.mp h with rfl | hm
        · have hfirst : slash ∉ first := ih (hs ▸ mem_cons_self)
          have hcs : slash ≠ c := fun he => hc (by rw [he, beq_self_eq_true])
          exact fun hm => (mem_cons.mp hm).elim hcs hfirst
        · exact ih (hs ▸ mem_cons_of_mem _ hm)

/-- What `sanitizeArchivePath` gives is a path of plain names. -/
theorem sanitizeArchivePath_plain {value rel : Text} (h : sanitizeArchivePath value = .ok rel) :
    ∀ part ∈ rel.splitOn slash, Plain part := by
  simp only [sanitizeArchivePath] at h
  split_ifs at h with hempty hback habs hdots hbad
  obtain rfl := ok.inj h
  have hroot : ¬ (trim value).head? = some slash := fun hr => habs (.inl hr)
  have hparts : ∀ rooted, ((trim value).splitOn slash).foldl
      (cleanStep rooted) [] = _ := fun _ => foldl_cleanStep hdots []
  simp only [clean, hroot, decide_false, hparts, Bool.false_eq_true, if_false] at hbad ⊢
  split_ifs at hbad ⊢ with hnil
  · exact absurd (.inl rfl) hbad
  · rw [splitOn_intercalate slash _ hnil]
    all_goals
      intro part hm
      obtain ⟨hm, hp⟩ := mem_filter.mp hm
      have hslash := slash_not_mem_splitOn hm
    · have hp : part ≠ [] ∧ part ≠ dot := by simpa using hp
      exact ⟨hp.1, hp.2, fun he => hdots (he ▸ hm), hslash⟩
    · exact hslash

/-! ## The file system -/

/-- What is there stays. -/
def Grows (fs fs' : Files) : Prop := ∀ k n, fs.lookup k = some n → fs'.lookup k = some n

/-- Every key with something under it is a directory. -/
def Closed (fs : Files) : Prop :=
  ∀ k p, p ≠ [] → p <+: k → p ≠ k → fs.lookup k ≠ none → fs.lookup p = some .dir

theorem Grows.refl (fs : Files) : Grows fs fs := fun _ _ h => h

theorem Grows.trans {a b c : Files} (h : Grows a b) (h' : Grows b c) :
    Grows a c := fun k n hk => h' k n (h k n hk)

theorem lookup_cons_new (fs : Files) (k : Key) (n : Node) : ((k, n) :: fs).lookup k = some n := by
  rw [lookup_cons, beq_self_eq_true]

variable {fs : Files}

variable {k : Key} {files : List (Text × Integrity)} {outputDir : List Text}

theorem lookup_cons_other {k' : Key} (h : k' ≠ k) (n : Node) :
    ((k, n) :: fs).lookup k' = fs.lookup k' := by
  rw [lookup_cons, beq_false_of_ne h]

theorem grows_cons (h : fs.lookup k = none) (n : Node) : Grows fs ((k, n) :: fs) := by
  intro k' n' hk
  rw [lookup_cons_other]
  · exact hk
  · rintro rfl
    cases h.symm.trans hk

theorem lookup_filter {p : Key → Bool} : (fs.filter fun entry => p entry.1).lookup k =
      if p k then fs.lookup k else none := by
  induction fs with
  | nil => simp
  | cons entry fs ih =>
    obtain ⟨k', n⟩ := entry
    rw [filter_cons]
    by_cases hk : k = k'
    · subst hk
      by_cases hp : p k = true
      · rw [if_pos hp, lookup_cons_new, lookup_cons_new, if_pos hp]
      · rw [if_neg hp, ih, if_neg hp, if_neg hp]
    · rw [lookup_cons_other hk, ← ih]
      split
      · rw [lookup_cons_other hk]
      · rfl

theorem mem_of_lookup {n : Node} (h : fs.lookup k = some n) : (k, n) ∈ fs := by
  obtain ⟨_, _, rfl, -⟩ := lookup_eq_some_iff.mp h
  exact mem_append_right _ mem_cons_self

/-- To create a file and remove it again changes nothing. -/
theorem lookup_remove_cons (h : fs.lookup k = none) (n : Node) (k' : Key) :
    (remove ((k, n) :: fs) k).lookup k' = fs.lookup k' := by
  rw [remove, lookup_filter (p := fun k' => decide (k' ≠ k))]
  by_cases hk : k' = k
  · subst hk
    simp [h]
  · rw [if_pos (by simpa using hk), lookup_cons_other hk]

section

variable {M : Type} {sys : System M}

/-- What `mkdirAll` does: it makes directories, all on the path, and when it
succeeds the whole path is there. -/
structure Made (sys : System M) (fs : Files) (done rest : List Text) (r : Files × Bool) : Prop where
  grows : Grows fs r.1
  made : ∀ k n, r.1.lookup k = some n → fs.lookup k = some n ∨
    n = .dir ∧ ∃ q, q ≠ [] ∧ q <+: rest ∧ k = sys.key (done ++ q)
  path : r.2 = true → ∀ q, q ≠ [] → q <+: rest → r.1.lookup (sys.key (done ++ q)) = some .dir

variable {fs' : Files} {track : Bool}

theorem Made.cons {done rest : List Text} {name : Text} {r : Files × Bool}
    (h : Made sys fs' (done ++ [name]) rest r) (hg : Grows fs fs')
    (hdir : fs'.lookup (sys.key (done ++ [name])) = some .dir)
    (hnew : ∀ k n, fs'.lookup k = some n → fs.lookup k = some n ∨
      n = .dir ∧ k = sys.key (done ++ [name])) : Made sys fs done (name :: rest) r := by
  have hcons : ∀ q, done ++ name :: q = done ++ [name] ++ q := by simp
  refine ⟨hg.trans h.grows, fun k n hk => ?_, fun hok q hq hp => ?_⟩
  · rcases h.made k n hk with hk | ⟨hn, q, -, hp, rfl⟩
    · rcases hnew k n hk with hk | ⟨hn, rfl⟩
      · exact .inl hk
      · exact .inr ⟨hn, [name], nofun, ⟨rest, rfl⟩, rfl⟩
    · exact .inr ⟨hn, name :: q, nofun, (prefix_cons_inj name).mpr hp, by rw [hcons q]⟩
  · obtain ⟨x, q, rfl⟩ := exists_cons_of_ne_nil hq
    obtain ⟨rfl, htail⟩ := cons_prefix_cons.mp hp
    by_cases hnil : q = []
    · subst hnil
      exact h.grows _ _ hdir
    · rw [hcons]
      exact h.path hok q hnil htail

theorem mkdirAll_made (sys : System M) (fs : Files) (done rest : List Text) :
    Made sys fs done rest (mkdirAll sys fs done rest) := by
  induction rest generalizing fs done with
  | nil =>
    refine ⟨.refl fs, fun _ _ h => .inl h, fun _ q hq hp => ?_⟩
    exact absurd (prefix_nil.mp hp) hq
  | cons name rest ih =>
    rw [mkdirAll]
    split
    next hl => exact (ih fs _).cons (.refl fs) hl fun _ _ hk => .inl hk
    next => exact ⟨.refl fs, fun _ _ h => .inl h, nofun⟩
    next hl =>
      refine (ih _ _).cons (grows_cons hl _) (lookup_cons_new _ _ _) fun k n hk => ?_
      by_cases he : k = sys.key (done ++ [name])
      · subst he
        rw [lookup_cons_new] at hk
        exact .inr ⟨(some.inj hk).symm, rfl⟩
      · rw [lookup_cons_other he] at hk
        exact .inl hk

/-- What is there already is passed by. -/
theorem mkdirAll_append {done dirs rest : List Text}
    (h : ∀ q, q ≠ [] → q <+: dirs → fs.lookup (sys.key (done ++ q)) = some .dir) :
    mkdirAll sys fs done (dirs ++ rest) = mkdirAll sys fs (done ++ dirs) rest := by
  induction dirs generalizing done with
  | nil => rw [nil_append, append_nil]
  | cons name dirs ih =>
    rw [cons_append, mkdirAll, h [name] nofun ⟨dirs, rfl⟩]
    rw [ih, append_assoc, singleton_append]
    intro q _ hp
    have := h (name :: q) nofun ((prefix_cons_inj name).mpr hp)
    rwa [append_assoc]

section

variable (sys : System M) (outputDir : List Text)

/-- Strictly inside of the output directory. -/
def Inside (k : Key) : Prop :=
  ∃ q, q ≠ [] ∧ k = sys.key (resolve outputDir ++ q)

/-- The output directory is there, and so is the way to it. -/
def Ready (fs : Files) : Prop :=
  ∀ q, q ≠ [] → q <+: resolve outputDir → fs.lookup (sys.key q) = some .dir

/-- Where the file of a relative path lies. -/
def place (rel : Text) : Key :=
  sys.key (absolutePath outputDir rel)

end

theorem Ready.grows (h : Ready sys outputDir fs) (hg : Grows fs fs') :
    Ready sys outputDir fs' := fun q hq hp => hg _ _ (h q hq hp)

theorem not_inside_of_prefix {q : List Text} (hp : q <+: resolve outputDir) :
    ¬ Inside sys outputDir (sys.key q) := by
  rintro ⟨q', hne, he⟩
  have hlen := congrArg List.length he
  have hle := hp.length_le
  have hpos := length_pos_of_ne_nil hne
  simp only [System.key, length_map, length_append] at hlen
  omega

theorem prepareOutputDirectory_ready (hfs : Closed fs) {force : Bool}
    (h : prepareOutputDirectory sys fs outputDir force = (fs', .ok ())) :
    Ready sys outputDir fs' ∧ ∀ k, Inside sys outputDir k → fs'.lookup k = none := by
  have make : ∀ base made : Files, (∀ k, Inside sys outputDir k → base.lookup k = none) →
      mkdirAll sys base [] (resolve outputDir) = (made, true) → made = fs' →
        Ready sys outputDir fs' ∧ ∀ k, Inside sys outputDir k → fs'.lookup k = none := by
    rintro base _ hbase hm rfl
    have hmade := mkdirAll_made sys base [] (resolve outputDir)
    rw [hm] at hmade
    refine ⟨hmade.path rfl, fun k hk => ?_⟩
    rw [eq_none_iff_forall_ne_some]
    intro n hn
    rcases hmade.made k n hn with hn | ⟨-, q, -, hp, rfl⟩
    · cases (hbase k hk).symm.trans hn
    · exact not_inside_of_prefix hp hk
  have hpre : ∀ k, Inside sys outputDir k →
      sys.key (resolve outputDir) <+: k ∧ k ≠ sys.key (resolve outputDir) := by
    rintro k ⟨q, hne, rfl⟩
    refine ⟨⟨sys.key q, (map_append ..).symm⟩, fun he => ?_⟩
    have hin : Inside sys outputDir (sys.key (resolve outputDir ++ q)) := ⟨q, hne, rfl⟩
    rw [he] at hin
    exact not_inside_of_prefix (prefix_refl _) hin
  rw [prepareOutputDirectory] at h
  dsimp only at h
  split at h
  next => cases (mk.inj h).2
  next =>
    split_ifs at h with hent hforce
    · split at h
      next hm =>
        refine make _ _ (fun k hk => ?_) hm (mk.inj h).1
        rw [removeAll, lookup_filter (p := fun k => decide (¬ sys.key (resolve outputDir) <+: k)),
          if_neg (by simpa using (hpre k hk).1)]
      next => cases (mk.inj h).2
    · cases (mk.inj h).2
    · split at h
      next hm =>
        refine make _ _ (fun k hk => ?_) hm (mk.inj h).1
        rw [eq_none_iff_forall_ne_some]
        intro n hn
        refine hent (any_eq_true.mpr ⟨(k, n), ?_, by simpa using hpre k hk⟩)
        exact mem_of_lookup hn
      next => cases (mk.inj h).2
  next hstat =>
    split at h
    next hm =>
      refine make _ _ (fun k hk => ?_) hm (mk.inj h).1
      have hroot : sys.key (resolve outputDir) ≠ [] := by
        intro he
        rw [stat, if_pos he] at hstat
        cases hstat
      rw [stat, if_neg hroot] at hstat
      by_contra hn
      have hdir := hfs k _ hroot (hpre k hk).1 (hpre k hk).2.symm hn
      cases hstat.symm.trans hdir
    next => cases (mk.inj h).2

/-! ## One entry -/

/-- The integrity that is kept of a content. -/
def integrityOf (sys : System M) (track : Bool) (body : Bytes) : Integrity :=
  ⟨body.length, if track then sys.sha256 body else ""⟩

/-- What one turn of the loop does: what is there stays, what is new is inside
of the output directory, and a file is new only as the one recorded. -/
structure Unpacked (sys : System M) (outputDir seen : List Text) (track : Bool) (fs : Files)
    (r : Files × Except UnpackError (Text × Integrity)) : Prop where
  grows : Grows fs r.1
  inside : ∀ k n, r.1.lookup k = some n → fs.lookup k = some n ∨ Inside sys outputDir k ∧
      (n = .dir ∨ ∃ file, r.2 = .ok file ∧ k = place sys outputDir file.1)
  wrote : ∀ file, r.2 = .ok file → file.1 ∉ seen ∧
    ∃ body, r.1.lookup (place sys outputDir file.1) = some (.file body) ∧
      file.2 = integrityOf sys track body

theorem Unpacked.refused {seen : List Text} (err : UnpackError) :
    Unpacked sys outputDir seen track fs (fs, .error err) := ⟨.refl fs, fun _ _ h => .inl h, nofun⟩

theorem unpackEntry_unpacked (hready : Ready sys outputDir fs)
    (seen : List Text) (track : Bool) (e : Entry) :
    Unpacked sys outputDir seen track fs (unpackEntry sys fs outputDir seen track e) := by
  rw [unpackEntry]
  split
  next err _ => exact .refused err
  next rel hrel =>
    split_ifs with hseen hregular hsize
    · exact .refused _
    · exact .refused _
    rotate_left
    · exact .refused _
    have hplain := sanitizeArchivePath_plain hrel
    have hpath := resolve_append hplain outputDir
    have hne : rel.splitOn slash ≠ [] := splitOn_ne_nil _ _
    have hdrop : (absolutePath outputDir rel).dropLast =
        resolve outputDir ++ (rel.splitOn slash).dropLast := by
      rw [absolutePath, hpath, dropLast_append_of_ne_nil hne]
    have hplace : Inside sys outputDir (place sys outputDir rel) :=
      ⟨_, hne, by rw [place, absolutePath, hpath]⟩
    have hmade := mkdirAll_made sys fs (resolve outputDir) (rel.splitOn slash).dropLast
    unfold unpackTarFileTracked
    dsimp only
    rw [hdrop, mkdirAll_append fun q hq hp => by simpa using hready q hq hp, nil_append]
    generalize mkdirAll sys fs (resolve outputDir) (rel.splitOn slash).dropLast = made at hmade
    obtain ⟨fs', ok⟩ := made
    have hdirs : ∀ k n, fs'.lookup k = some n → fs.lookup k = some n ∨
        Inside sys outputDir k ∧ n = .dir := by
      intro k n hk
      rcases hmade.made k n hk with hk | ⟨hn, q, hq, -, rfl⟩
      · exact .inl hk
      · exact .inr ⟨⟨q, hq, rfl⟩, hn⟩
    -- Whatever goes wrong from here, only directories are left behind.
    have hfailed : ∀ (fs'' : Files) (err : UnpackError), (∀ k, fs''.lookup k = fs'.lookup k) →
        Unpacked sys outputDir seen track fs (fs'', .error err) := by
      intro fs'' err hsame
      refine ⟨fun k n hk => ?_, fun k n hk => ?_, nofun⟩
      · exact (hsame k).trans (hmade.grows k n hk)
      · exact (hdirs k n ((hsame k).symm.trans hk)).imp_right fun ⟨hin, hn⟩ => ⟨hin, .inl hn⟩
    cases ok with
    | false => exact hfailed fs' _ fun _ => rfl
    | true =>
      simp only
      split_ifs with hthere hcopy hlen htrack
      · exact hfailed fs' _ fun _ => rfl
      all_goals have hnone := not_isSome_iff_eq_none.mp hthere
      · exact hfailed _ _ (lookup_remove_cons hnone _)
      · exact hfailed _ _ (lookup_remove_cons hnone _)
      all_goals
        refine ⟨hmade.grows.trans (grows_cons hnone _), fun k n hk => ?_, ?_⟩
        · by_cases hkey : k = place sys outputDir rel
          · subst hkey
            exact .inr ⟨hplace, .inr ⟨_, rfl, rfl⟩⟩
          · refine (hdirs k n ?_).imp_right fun ⟨hin, hn⟩ => ⟨hin, .inl hn⟩
            exact (lookup_cons_other hkey _).symm.trans hk
        · rintro _ ⟨⟩
          exact ⟨hseen, e.body, lookup_cons_new _ _ _, by simp [integrityOf, htrack]⟩

/-! ## The stream -/

/-- What the loop knows of what it has written. -/
structure Records (sys : System M) (outputDir : List Text) (track : Bool)
    (fs : Files) (files : List (Text × Integrity)) : Prop where
  ready : Ready sys outputDir fs
  nodup : (files.map (·.1)).Nodup
  written : ∀ file ∈ files, ∃ body, fs.lookup (place sys outputDir file.1) = some (.file body) ∧
      file.2 = integrityOf sys track body
  recorded : ∀ k body, Inside sys outputDir k → fs.lookup k = some (.file body) →
      ∃ file ∈ files, k = place sys outputDir file.1

theorem Records.step {file : Text × Integrity} (h : Records sys outputDir track fs files)
    (hu : Unpacked sys outputDir (files.map (·.1)) track fs (fs', .ok file)) :
    Records sys outputDir track fs' (files ++ [file]) := by
  obtain ⟨hnew, hbody⟩ := hu.wrote file rfl
  refine ⟨h.ready.grows hu.grows, ?_, fun f hf => ?_, fun k body hin hk => ?_⟩
  · rw [map_append, map_singleton, ← concat_eq_append]
    exact .concat hnew h.nodup
  · rcases mem_append.mp hf with hf | hf
    · obtain ⟨body, hat, hi⟩ := h.written f hf
      exact ⟨body, hu.grows _ _ hat, hi⟩
    · exact mem_singleton.mp hf ▸ hbody
  · rcases hu.inside k _ hk with hk | ⟨-, hdir | ⟨f, hf, hk⟩⟩
    · obtain ⟨f, hf, hk⟩ := h.recorded k body hin hk
      exact ⟨f, mem_append_left _ hf, hk⟩
    · cases hdir
    · cases hf
      exact ⟨file, by simp, hk⟩

/-- The loop: nothing is lost, what is new is inside, and in the end the
records are complete. -/
theorem unpackEntries_run {endsWell : Bool} (entries : List Entry)
    (h : Records sys outputDir track fs files)
    {r : Files × Except UnpackError (List (Text × Integrity))}
    (hr : unpackEntries sys outputDir track endsWell fs files entries = r) :
    Grows fs r.1 ∧ (∀ k n, r.1.lookup k = some n → fs.lookup k = some n ∨ Inside sys outputDir k) ∧
      ∀ files', r.2 = .ok files' → Records sys outputDir track r.1 files' := by
  induction entries generalizing fs files with
  | nil =>
    subst hr
    refine ⟨.refl fs, fun _ _ hk => .inl hk, fun files' hok => ?_⟩
    rw [unpackEntries] at hok ⊢
    split_ifs at hok
    cases hok
    exact h
  | cons e entries ih =>
    have hu := unpackEntry_unpacked h.ready (files.map (·.1)) track e
    rw [unpackEntries] at hr
    split at hr
    next he =>
      rw [he] at hu
      cases hr
      exact ⟨hu.grows, fun k n hk => (hu.inside k n hk).imp_right And.left, nofun⟩
    next he =>
      rw [he] at hu
      obtain ⟨hg, hin, hrec⟩ := ih (h.step hu) hr
      refine ⟨hu.grows.trans hg, fun k n hk => ?_, hrec⟩
      rcases hin k n hk with hk | hk
      · exact (hu.inside k n hk).imp_right And.left
      · exact .inr hk

/-- What a stream has written so far stays as the stream goes on. -/
theorem unpackEntries_append {endsWell : Bool} (pre post : List Entry)
    (h : Records sys outputDir track fs files) :
    Grows (unpackEntries sys outputDir track true fs files pre).1
      (unpackEntries sys outputDir track endsWell fs files (pre ++ post)).1 := by
  induction pre generalizing fs files with
  | nil => exact (unpackEntries_run post h rfl).1
  | cons e pre ih =>
    have hu := unpackEntry_unpacked h.ready (files.map (·.1)) track e
    rw [cons_append, unpackEntries, unpackEntries]
    split
    next => exact .refl _
    next he =>
      rw [he] at hu
      exact ih (h.step hu)

theorem prepareOutputDirectory_records (hfs : Closed fs) {force : Bool}
    (h : prepareOutputDirectory sys fs outputDir force = (fs', .ok ()))
    (track : Bool) : Records sys outputDir track fs' [] := by
  obtain ⟨hready, hempty⟩ := prepareOutputDirectory_ready hfs h
  refine ⟨hready, nodup_nil, nofun, fun k body hin hk => ?_⟩
  cases (hempty k hin).symm.trans hk

end

/-! ## The collection -/

section

variable {sys : System Manifest}

/-- The path `sanitizeArchivePath` makes of a name it takes. -/
def sanitized (value : Text) : Text :=
  match sanitizeArchivePath value with
  | .ok rel => rel
  | .error _ => value

theorem archivePaths_eq {candidates acc out : List Text} (h : archivePaths acc candidates = .ok out)
    (hacc : acc.Nodup) : out = acc ++ candidates.map sanitized ∧ out.Nodup := by
  induction candidates generalizing acc with
  | nil =>
    obtain rfl := ok.inj h
    exact ⟨(append_nil _).symm, hacc⟩
  | cons candidate rest ih =>
    rw [archivePaths] at h
    split at h
    next => cases h
    next rel hrel =>
      split_ifs at h with hseen
      have hnodup : (acc ++ [rel]).Nodup := by
        rw [← concat_eq_append]
        exact .concat hseen hacc
      obtain ⟨rfl, hout⟩ := ih h hnodup
      refine ⟨?_, hout⟩
      rw [map_cons, sanitized, hrel, append_assoc]
      rfl

theorem verifyChecksumValues_ok {sha : String} {bytes : Int} {actual : Integrity}
    (h : verifyChecksumValues sha bytes actual = .ok ()) (hbytes : 0 ≤ bytes) :
    (actual.compressedBytes : Int) = bytes ∧ actual.sha256 = sha := by
  rw [verifyChecksumValues] at h
  split_ifs at h with hcount hsha
  exact ⟨not_not.mp fun hne => hcount ⟨hbytes, hne⟩, not_not.mp hsha⟩

theorem forM_ok {α : Type} {f : α → Except UnpackError Unit} {l : List α}
    (h : l.forM f = .ok ()) : ∀ a ∈ l, f a = .ok () := by
  induction l with
  | nil => nofun
  | cons a l ih =>
    obtain ⟨⟨⟩, ha, hl⟩ := bind_eq_ok h
    exact forall_mem_cons.mpr ⟨ha, ih hl⟩

variable {m : Manifest}

theorem validateExtractedCollection_ok
    (h : validateExtractedCollection sys fs outputDir files = .ok m) :
    readManifest sys fs outputDir = .ok m ∧ ∃ expected, archivePathsFromManifest m = .ok expected ∧
      (∀ file ∈ files, file.1 ∈ expected) ∧ (∀ path ∈ expected, path ∈ files.map (·.1)) ∧
      ∀ f ∈ m.files, verifyChecksumValues f.sha256 f.compressedBytes
        ((files.lookup f.path).getD ⟨0, ""⟩) = .ok () := by
  obtain ⟨m', hm, h⟩ := bind_eq_ok h
  obtain ⟨expected, hexp, h⟩ := bind_eq_ok h
  split_ifs at h with hunexpected hmissing
  obtain ⟨⟨⟩, hsums, h⟩ := bind_eq_ok h
  obtain rfl := ok.inj h
  refine ⟨hm, expected, hexp, ?_, ?_, forM_ok hsums⟩
  · simpa using hunexpected
  · simpa using hmissing

theorem readManifest_ok (h : readManifest sys fs outputDir = .ok m) :
    (∃ content, fs.lookup (place sys outputDir manifestFileName) =
      some (.file content) ∧ sys.decode content = some m) ∧
    ∀ f ∈ m.files, 0 ≤ f.compressedBytes ∧ f.sha256 ≠ "" := by
  revert h
  fun_cases readManifest sys fs outputDir with
  | case1 content hat m hdecode hvalid =>
    rintro ⟨⟩
    refine ⟨⟨content, hat, hdecode⟩, fun f hf => ?_⟩
    obtain ⟨g, hg, hf⟩ := mem_flatMap.mp hf
    have hgraphs : ∀ g ∈ m.graphs, g.valid = true := by
      simp only [Manifest.validate, Bool.and_eq_true] at hvalid
      exact all_eq_true.mp hvalid.2
    have hfiles : ∀ f ∈ g.files, f.valid = true := by
      have hg := hgraphs g hg
      simp only [GraphEntry.valid, Bool.and_eq_true] at hg
      exact all_eq_true.mp hg.1.1.1.2
    have hf := hfiles f hf
    simp only [FileEntry.valid, Bool.and_eq_true, decide_eq_true_eq] at hf
    exact ⟨hf.1.1.2, hf.2⟩
  | _ => nofun

/-- A checked collection has the files its manifest lists, with no other, and
each is as the manifest says. -/
theorem validateExtractedCollection_exact (hrec : Records sys outputDir true fs files)
    (h : validateExtractedCollection sys fs outputDir files = .ok m) :
    (∀ path, path ∈ manifestFileName :: m.files.map FileEntry.path ↔ path ∈ files.map (·.1)) ∧
    ∀ f ∈ m.files, ∃ body, fs.lookup (place sys outputDir f.path) = some (.file body) ∧
        (body.length : Int) = f.compressedBytes ∧ sys.sha256 body = f.sha256 := by
  obtain ⟨hm, expected, hexp, hsub, hsup, hsums⟩ := validateExtractedCollection_ok h
  obtain ⟨-, hvalid⟩ := readManifest_ok hm
  -- The integrity of a listed file is there, or its checksum would be empty.
  have hfile : ∀ f ∈ m.files, ∃ i, (f.path, i) ∈ files ∧
      (i.compressedBytes : Int) = f.compressedBytes ∧ i.sha256 = f.sha256 := by
    intro f hf
    obtain ⟨hbytes, hsha⟩ := verifyChecksumValues_ok (hsums f hf) (hvalid f hf).1
    cases hl : files.lookup f.path with
    | none =>
      rw [hl] at hsha
      exact absurd hsha.symm (hvalid f hf).2
    | some i =>
      rw [hl] at hbytes hsha
      obtain ⟨_, _, rfl, -⟩ := lookup_eq_some_iff.mp hl
      exact ⟨i, by simp, hbytes, hsha⟩
  constructor
  · obtain ⟨sorted, hsorted, rfl⟩ : ∃ out, archivePaths []
        (manifestFileName :: m.files.map FileEntry.path) = .ok out ∧
          expected = out.insertionSort (· ≤ ·) := by
      rw [archivePathsFromManifest] at hexp
      cases ha : archivePaths [] (manifestFileName :: m.files.map FileEntry.path) with
      | error err => cases (ha ▸ hexp :)
      | ok out => exact ⟨out, rfl, (ok.inj (ha ▸ hexp :)).symm⟩
    simp only [mem_insertionSort] at hsub hsup
    obtain ⟨rfl, hnodup⟩ := archivePaths_eq hsorted nodup_nil
    have hname : sanitized manifestFileName = manifestFileName := by
      decide +kernel
    have hlisted : manifestFileName :: m.files.map FileEntry.path ⊆ files.map (·.1) := by
      intro path hp
      rcases mem_cons.mp hp with rfl | hp
      · exact hsup _ (by rw [map_cons]; exact mem_cons_self)
      · obtain ⟨f, hf, rfl⟩ := mem_map.mp hp
        obtain ⟨i, hi, -⟩ := hfile f hf
        exact mem_map.mpr ⟨_, hi, rfl⟩
    have hfew : (files.map (·.1)).length ≤
        (manifestFileName :: m.files.map FileEntry.path).length := by
      have hall : files.map (·.1) ⊆ (manifestFileName ::
          m.files.map FileEntry.path).map sanitized := by
        intro path hp
        obtain ⟨file, hf, rfl⟩ := mem_map.mp hp
        exact hsub file hf
      have := (subperm_of_subset hrec.nodup hall).length_le
      simpa using this
    have hperm := (subperm_of_subset hnodup.of_map hlisted).perm_of_length_le hfew
    exact fun path => hperm.mem_iff
  · intro f hf
    obtain ⟨i, hi, hbytes, hsha⟩ := hfile f hf
    obtain ⟨body, hat, rfl⟩ := hrec.written _ hi
    exact ⟨body, hat, hbytes, hsha⟩

/-- For every tar stream: what unpacking adds to the prepared file system is
strictly inside of the output directory; a file that the stream has written
stays as it is; and an unpacked collection has exactly the files of its
manifest, each of its size and checksum. -/
theorem unpack_contained_exact (sys : System Manifest) (fs : Files)
    (hfs : Closed fs) (stream : Stream) (outputDir : List Text) (force : Bool) : (∀ track k n,
      (unpackTarWithOptions sys fs stream outputDir force track).1.lookup k = some n →
      (prepareOutputDirectory sys fs outputDir force).1.lookup k = some n ∨
        Inside sys outputDir k) ∧
    (∀ track pre post, stream.entries = pre ++ post → ∀ k body,
      (unpackTarWithOptions sys fs ⟨pre, true⟩ outputDir force
        track).1.lookup k = some (.file body) →
      (unpackTarWithOptions sys fs stream outputDir force track).1.lookup k = some (.file body)) ∧
    ∀ final m, unpackCollectionTarWithOptions sys fs stream outputDir force = (final, .ok m) →
      (∃ content, final.lookup (place sys outputDir manifestFileName) =
        some (.file content) ∧ sys.decode content = some m) ∧
      (∀ k, Inside sys outputDir k →
        ((∃ body, final.lookup k = some (.file body)) ↔
          ∃ path ∈ manifestFileName :: m.files.map FileEntry.path, k = place sys outputDir path)) ∧
      ∀ f ∈ m.files, ∃ body, final.lookup (place sys outputDir f.path) = some (.file body) ∧
          (body.length : Int) = f.compressedBytes ∧ sys.sha256 body = f.sha256 := by
  cases hp : prepareOutputDirectory sys fs outputDir force with
  | mk base res =>
    cases res with
    | error err =>
      have hrun : ∀ stream track,
          unpackTarWithOptions sys fs stream outputDir force track = (base, .error err) := by
        intro stream track
        rw [unpackTarWithOptions, hp]
      refine ⟨fun track k n hk => .inl ?_, fun track pre post _ k body hk
        => ?_, fun final m h => ?_⟩
      · rwa [hrun] at hk
      · rw [hrun] at hk ⊢
        exact hk
      · rw [unpackCollectionTarWithOptions, hrun] at h
        cases (mk.inj h).2
    | ok =>
      have hrun : ∀ stream track, unpackTarWithOptions sys fs stream outputDir force track =
            unpackEntries sys outputDir track stream.endsWell base []
              stream.entries := by
        intro stream track
        rw [unpackTarWithOptions, hp]
      have hstart := prepareOutputDirectory_records hfs hp
      refine ⟨fun track k n hk => ?_, fun track pre post he k body hk =>
        ?_, fun final m h => ?_⟩
      · rw [hrun] at hk
        exact (unpackEntries_run stream.entries (hstart track) rfl).2.1 k n hk
      · rw [hrun] at hk ⊢
        rw [he]
        exact unpackEntries_append pre post (hstart track) k _ hk
      · rw [unpackCollectionTarWithOptions, hrun] at h
        split at h
        next => cases (mk.inj h).2
        next files he =>
          obtain ⟨rfl, hm⟩ := mk.inj h
          have hrec := (unpackEntries_run stream.entries (hstart true) he).2.2 files rfl
          obtain ⟨hpaths, hfiles⟩ := validateExtractedCollection_exact hrec hm
          refine ⟨(readManifest_ok (validateExtractedCollection_ok hm).1).1, fun k hin =>
              ⟨fun ⟨body, hk⟩ => ?_, fun ⟨path, hp, hk⟩ => ?_⟩, hfiles⟩
          · obtain ⟨file, hf, hk⟩ := hrec.recorded k body hin hk
            exact ⟨file.1, (hpaths _).mpr (mem_map.mpr ⟨_, hf, rfl⟩), hk⟩
          · obtain ⟨file, hf, rfl⟩ := mem_map.mp ((hpaths path).mp hp)
            obtain ⟨body, hat, -⟩ := hrec.written file hf
            exact ⟨body, hk ▸ hat⟩

/-- A manifest of one fragment of two bytes. -/
def sampleManifest : Manifest := ⟨true, 1, [⟨"g", [⟨['a'], .nodes, 1, 2, 2, "two"⟩], 1, 0⟩]⟩

def sampleSystem : System Manifest where
  fold := id
  sha256 content := if content.length = 2 then "two" else "other"
  decode content := if content = [1] then some sampleManifest else none

def sampleStream : Stream := ⟨[⟨manifestFileName, true, 1, [1], false⟩,
    ⟨['.', '/', 'a'], true, 2, [7, 7], false⟩], true⟩

/-- The stream of a manifest and its fragment, unpacked into a directory that
is not there yet. -/
theorem unpack_contained_exact_sample : ∃ final,
    unpackCollectionTarWithOptions sampleSystem [] sampleStream [['o']] false =
      (final, .ok sampleManifest) ∧ ∀ f ∈ sampleManifest.files, ∃ body,
      final.lookup (place sampleSystem [['o']] f.path) = some (.file body) ∧
        (body.length : Int) = f.compressedBytes ∧ sampleSystem.sha256 body = f.sha256 := by
  have hrun : unpackCollectionTarWithOptions sampleSystem [] sampleStream
      [['o']] false = ([([['o'], ['a']], .file [7, 7]),
          ([['o'], manifestFileName], .file [1]), ([['o']], .dir)],
            .ok sampleManifest) := by decide +kernel
  exact ⟨_, hrun, ((unpack_contained_exact sampleSystem []
    (fun _ _ _ _ _ h => absurd rfl h) sampleStream [['o']] false).2.2 _ _ hrun).2.2⟩

end

end Dawgs.Ref.Tar
