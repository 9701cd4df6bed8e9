import FileGraph.Proofs.FileTree.Passes
import FileGraph.Proofs.Resolver

/-! # Relative targets of scripts

A target is put behind the folder of the file it is written in, and an ending behind the target, both
as texts.  Where the folders on the way exist, the path that comes of it leads to the file whose path
it is once `.` and `..` are worked out.

* `Resolver.Denotes`: a target denotes a file without its ending, or as the index file of a folder.
* `Resolver.resolve?_relative`: the id of that file is answered, if there is no file at any path that
  is tried earlier.
-/

namespace FileGraph.Resolver

open FileGraph.FileTree (Passes LinkFree pathLimit)
open FileGraph.Path (Component Lexical join_append getLast?_join)

/-- A target, read from the folder of a file, denotes another file by the path of that file without
its ending, or by the path of the folder whose index file it is. The last argument is the path under
which the file is looked for. -/
inductive Denotes (tree : FileTree) (file : SourceFile) (target : String) (other : SourceFile)
    (ending : String) : Path → Prop where
  | direct (front name : String) (stem : Path) {place : Location} :
      target = front ++ name → front.toList.getLast? = some '/' → '/' ∉ name.toList →
      Passes tree (file.folder.join front) place → other.path = stem.withSuffix ending →
      other.path.fileName? = some (name ++ ending) →
      (file.folder.join target).normalize.components = stem.components →
      Denotes tree file target other ending ((file.folder.join target).withSuffix ending)
  | index {place : Location} :
      Passes tree (file.folder.join target) place →
      other.path.fileName? = some ("index" ++ ending) →
      (file.folder.join target).normalize.components = other.folder.components →
      Denotes tree file target other ending ((file.folder.join target).join ("index" ++ ending))

variable {tree : FileTree} {root base above : Path} {aliases : AliasTable}
  {files : List SourceFile} {file other : SourceFile} {target ending name : String}
  {place : Location}

/-! ## The path of the file -/

/-- Where a name is put behind two paths, and these say the same but for what the name without its
ending says, the paths say the same. -/
theorem components_eq_of_normalize {s : List Char}
    (same : ((Path.componentOf? s).toList.foldl Lexical.push (.rooted place)).components =
      above.components ++ (Path.componentOf? s).toList) :
    above.components = (Lexical.rooted place).components := by
  rw [Path.componentOf?] at same
  split at same
  next => simpa using same.symm
  next =>
    split at same
    next =>
      -- A normal form that begins at the root never climbs.
      have never : ∀ names, Component.up ∉ (Lexical.rooted names).components := by
        simp [Lexical.components]
      refine absurd ?_ (never place.dropLast)
      change (Lexical.rooted place.dropLast).components = _ at same
      rw [same]
      simp
    next =>
      simp only [Option.toList_some, List.foldl_cons, List.foldl_nil, Lexical.push] at same
      have further : (Lexical.rooted (place ++ [String.ofList s])).components =
          (Lexical.rooted place).components ++ [.name (String.ofList s)] := by
        simp [Lexical.components]
      rw [further] at same
      exact (List.append_cancel_right same).symm

theorem join_eq_withSuffix (isName : Path.IsName name) (ends : base.text.toList.getLast? = some '/') :
    base.join name = base.withSuffix name := by
  have apart : (Path.mk name).isAbsolute = false := by
    simpa [Path.isAbsolute] using isName.head?_ne
  have filled : base.text.isEmpty = false := by
    rw [String.isEmpty_eq_false_iff]
    intro empty
    rw [empty] at ends
    cases ends
  simp [Path.join, Path.withSuffix, apart, filled, ends]

/-! ## Where the file is looked for -/

section

variable {outer candidate : Path} {own : String} (linkFree : LinkFree tree.top)
  (inside : file.folder.isAbsolute = true) (filled : outer.text ≠ "") (isName : Path.IsName own)
  (written : other.path = outer.join own)

include linkFree inside filled isName written

/-- The path under which a file is looked for is that of a folder and the name of the file, and the
path of the file itself says where the folder is. -/
theorem Denotes.exists_join (denotes : Denotes tree file target other ending candidate) :
    ∃ base place, base.isAbsolute = true ∧ Passes tree base place ∧ candidate = base.join own ∧
      other.path.components = (Lexical.rooted place).components ++ [.name own] := by
  have whole : other.path.components = outer.components ++ [.name own] := by
    rw [written, Path.components_join isName filled]
  have fileName : other.path.fileName? = some own := Path.fileName?_eq_some whole
  cases denotes with
  | @direct front name stem place shape slash slashless passes stemmed named same =>
    obtain rfl := Option.some.inj (named.symm.trans fileName)
    have filled' : front ≠ "" := by
      rintro rfl
      cases slash
    have absolute := Path.isAbsolute_join inside front
    have ends : (file.folder.join front).text.toList.getLast? = some '/' :=
      (getLast?_join filled' _).trans slash
    -- The path of the file, cut behind its last slash.
    obtain ⟨above, ends', joined, alike⟩ := Path.exists_join_eq_withSuffix isName filled
    have cut : stem = above.withSuffix name := by
      rw [written, joined] at stemmed
      have texts : above.text ++ name ++ ending = stem.text ++ ending := by
        rw [String.append_assoc]
        exact congrArg Path.text stemmed
      exact congrArg Path.mk (String.append_left_inj ending |>.1 texts).symm
    have meaning : above.components = (Lexical.rooted place).components := by
      rw [shape, join_append filled', cut, Path.normalize, Path.components_withSuffix ends slashless,
        Path.components_withSuffix ends' slashless, List.foldl_append, ← Path.normalize,
        passes.normalize_eq linkFree absolute] at same
      exact components_eq_of_normalize same
    refine ⟨file.folder.join front, place, absolute, passes, ?_, ?_⟩
    · rw [shape, join_append filled', join_eq_withSuffix isName ends]
      simp [Path.withSuffix, String.append_assoc]
    · rw [whole, ← alike, meaning]
  | @index place passes named same =>
    obtain rfl := Option.some.inj (named.symm.trans fileName)
    have absolute := Path.isAbsolute_join inside target
    obtain ⟨folder, parent, meaning⟩ := Path.exists_parent?_components whole
    have outside : other.folder = folder := by rw [SourceFile.folder, parent, Option.getD_some]
    refine ⟨file.folder.join target, place, absolute, passes, rfl, ?_⟩
    rw [whole, ← meaning, ← outside, ← same, passes.normalize_eq linkFree absolute]

end

theorem Denotes.mem_probes {candidate : Path} {language : Language}
    (known : ending ∈ language.probeEndings)
    (denotes : Denotes tree file target other ending candidate) :
    candidate ∈ probes language (file.folder.join target) := by
  refine List.mem_append_left _ (List.mem_flatMap.2 ⟨ending, known, ?_⟩)
  cases denotes with
  | direct => exact List.mem_cons_self
  | index => exact List.mem_cons_of_mem _ (List.mem_singleton_self _)

theorem firstFile?_eq_some {paths : List Path} {candidate : Path} (member : candidate ∈ paths)
    (isFile : tree.isFile candidate = true)
    (first : ∀ earlier ∈ paths.takeWhile (· ≠ candidate), tree.isFile earlier = false) :
    firstFile? tree paths = some candidate := by
  obtain ⟨before, behind, rfl, apart⟩ := List.eq_append_cons_of_mem member
  have front : ∀ p ∈ before, decide (p ≠ candidate) = true := by
    intro p inside
    simpa using fun same : p = candidate => apart (same ▸ inside)
  have quiet : before.find? tree.isFile = none := by
    refine List.find?_eq_none.2 fun p inside => ?_
    rw [first p (by
      rw [List.takeWhile_append_of_pos front]
      exact List.mem_append_left _ inside)]
    exact Bool.false_ne_true
  rw [firstFile?, List.find?_append, quiet, Option.none_or, List.find?_cons_of_pos isFile]

theorem path?_relative {r : Resolver}
    (script : file.language = .typeScript ∨ file.language = .javaScript)
    (relative : target.toList.head? = some '.')
    (unmatched : ∀ entry ∈ r.aliases, entry.rest? target.toList = none) :
    r.path? tree file target = firstFile? tree (probes file.language (file.folder.join target)) := by
  have unaliased : r.aliases.rewrite? target = none := by
    rw [AliasTable.rewrite?, List.findSome?_eq_none_iff]
    intro entry member
    rw [unmatched entry member, Option.map_none]
  rw [path?_script script, scriptPath?, unaliased]
  exact if_pos (.inl relative)

/-- A relative target leads to the file that it denotes, by its path without its ending or as the
index file of a folder, if the folders on the way exist, no alias matches, no file is at any path
that is tried earlier, and the path under which the file is looked for is not too long. -/
theorem resolve?_relative {candidate : Path} (tidy : tree.top.Tidy) (wellFormed : tree.WellFormed)
    (linkFree : LinkFree tree.top) (absolute : root.isAbsolute = true)
    (collected : SourceFile.collect tree root = .ok files) (member : file ∈ files)
    (given : other ∈ files) (script : file.language = .typeScript ∨ file.language = .javaScript)
    (relative : target.toList.head? = some '.') (known : ending ∈ file.language.probeEndings)
    (unmatched : ∀ entry ∈ aliases, entry.rest? target.toList = none)
    (denotes : Denotes tree file target other ending candidate)
    (first : ∀ earlier ∈ (probes file.language (file.folder.join target)).takeWhile (· ≠ candidate),
      tree.isFile earlier = false)
    (fits : candidate.text.utf8ByteSize ≤ pathLimit) :
    (ofProject root aliases (files.map (·.relativePath))).resolve? tree file target =
      some other.relativePath := by
  obtain ⟨location, entries, found, named⟩ := SourceFile.of_mem_collect tidy collected
  have filled := Path.text_ne_of_isAbsolute absolute
  have normal : root.normalize = .rooted location := linkFree.normalize_eq absolute found
  obtain ⟨names, nonempty, isName, written, -⟩ := named file member
  have inside := (SourceFile.folder_of_path absolute nonempty isName written).1
  obtain ⟨names', nonempty', isName', written', id, bytes, mode, standing, regular⟩ := named other given
  -- The other file lies under its last name in the folder of the names before.
  obtain ⟨folders, own, rfl⟩ := (List.eq_nil_or_concat' names').resolve_left nonempty'
  have ownName := isName' own (by simp)
  have joined : other.path = (folders.foldl Path.join root).join own := by
    rw [written', List.foldl_append, List.foldl_cons, List.foldl_nil]
  have outer := Path.text_ne_of_isAbsolute (Path.isAbsolute_foldl_join absolute folders)
  obtain ⟨base, place, absolute', passes, rfl, meaning⟩ :=
    denotes.exists_join linkFree inside outer ownName joined
  have normal' : other.path.normalize = .rooted (place ++ [own]) :=
    Path.normalize_eq_rooted (by rw [meaning]; simp [Lexical.components])
  have here : location ++ (folders ++ [own]) = place ++ [own] := by
    rw [written', Path.normalize_foldl_join isName' filled normal] at normal'
    exact Lexical.rooted.inj normal'
  rw [here] at standing
  have isFile := passes.isFile_join linkFree wellFormed absolute' standing regular fits
  have probed := firstFile?_eq_some (denotes.mem_probes known) isFile first
  have reached : (base.join own).normalize = .rooted (location ++ (folders ++ [own])) := by
    have further := Path.normalize_foldl_join (List.forall_mem_singleton.2 ownName)
      (Path.text_ne_of_isAbsolute absolute') (passes.normalize_eq linkFree absolute')
    rw [here]
    exact further
  rw [resolve?, path?_relative script relative unmatched, probed, id]
  refine idFor?_rooted normal nonempty' reached ?_
  rw [← id]
  exact List.mem_map_of_mem given

/-! ## A project with targets that go to and fro -/

/-- A file in a folder, one beside the folder, and an index file. -/
def sampleEntries : List (String × Entry) :=
  [("a", .folder [("main.ts", .file .empty)]), ("b.d.ts", .file .empty),
    ("lib", .folder [("index.ts", .file .empty)])]

def sampleTree : FileTree :=
  .single sampleEntries

def sampleRoot : Path := ⟨"/p"⟩

def sampleFile (names : List String) : SourceFile :=
  ⟨names.foldl Path.join sampleRoot, "/".intercalate names, "", .typeScript⟩

theorem tidy_sampleTree : sampleTree.top.Tidy := by
  refine .folder (by decide) (by decide) (List.forall_mem_singleton.2 ?_)
  refine .folder (by decide) (by decide) (List.forall_mem_cons.2 ⟨?_, List.forall_mem_cons.2 ⟨.file,
    List.forall_mem_singleton.2 ?_⟩⟩)
  · exact .folder (by decide) (by decide) (List.forall_mem_singleton.2 .file)
  · exact .folder (by decide) (by decide) (List.forall_mem_singleton.2 .file)

theorem linkFree_sampleTree : LinkFree sampleTree.top := by
  have file := FileTree.linkFree_file .empty .plain
  refine FileTree.linkFree_folder (List.forall_mem_singleton.2 ?_)
  refine FileTree.linkFree_folder (List.forall_mem_cons.2 ⟨?_, List.forall_mem_cons.2 ⟨file,
    List.forall_mem_singleton.2 ?_⟩⟩)
  · exact FileTree.linkFree_folder (List.forall_mem_singleton.2 file)
  · exact FileTree.linkFree_folder (List.forall_mem_singleton.2 file)

theorem wellFormed_sampleTree : sampleTree.WellFormed := by
  have file := FileTree.wellNamed_file .empty .plain
  refine FileTree.wellNamed_folder (List.forall_mem_singleton.2 ⟨by decide, ?_⟩)
  refine FileTree.wellNamed_folder (List.forall_mem_cons.2 ⟨⟨by decide, ?_⟩,
    List.forall_mem_cons.2 ⟨⟨by decide, file⟩, List.forall_mem_singleton.2 ⟨by decide, ?_⟩⟩⟩)
  · exact FileTree.wellNamed_folder (List.forall_mem_singleton.2 ⟨by decide, file⟩)
  · exact FileTree.wellNamed_folder (List.forall_mem_singleton.2 ⟨by decide, file⟩)

theorem exists_sampleFiles : ∃ files, SourceFile.collect sampleTree sampleRoot = .ok files ∧
    sampleFile ["a", "main.ts"] ∈ files ∧ sampleFile ["b.d.ts"] ∈ files ∧
    sampleFile ["lib", "index.ts"] ∈ files := by
  have file : (Entry.file .empty).ordered = .file .empty := by rw [Entry.ordered]
  have single : ∀ name : String,
      (Entry.folder [(name, .file .empty)]).ordered = .folder [(name, .file .empty)] := fun name =>
    Entry.ordered_folder (List.pairwise_singleton _ _) (by simpa using file)
  have sorted : (Entry.folder sampleEntries).ordered = .folder sampleEntries :=
    Entry.ordered_folder (by decide) (List.forall_mem_cons.2 ⟨single _,
      List.forall_mem_cons.2 ⟨file, List.forall_mem_singleton.2 (single _)⟩⟩)
  exact ⟨_, SourceFile.collect_eq_ok (FileTree.lookup_single sampleEntries) sorted (by decide),
    by decide, by decide, by decide⟩

/-- A target that leaves a folder and enters it again, a name with a dot in it, and an index file. -/
theorem resolve?_relative_sample :
    ∃ files, SourceFile.collect sampleTree sampleRoot = .ok files ∧
      (ofProject sampleRoot [] (files.map (·.relativePath))).resolve? sampleTree
        (sampleFile ["a", "main.ts"]) "../a/.././b.d" = some "b.d.ts" ∧
      (ofProject sampleRoot [] (files.map (·.relativePath))).resolve? sampleTree
        (sampleFile ["a", "main.ts"]) "../lib" = some "lib/index.ts" := by
  obtain ⟨files, collected, main, beside, index⟩ := exists_sampleFiles
  have top : sampleTree.top.find? ["p"] = some (.folder sampleEntries) := rfl
  have front : (sampleFile ["a", "main.ts"]).folder.join "../a/.././" = ⟨"/p/a/../a/.././"⟩ := by
    decide
  have folder : (sampleFile ["a", "main.ts"]).folder.join "../lib" = ⟨"/p/a/../lib"⟩ := by decide
  have back : Passes sampleTree ⟨"/p/a/../a/.././"⟩ ["p"] := by
    have steps : FileTree.steps "/p/a/../a/.././" = ["p", "a", "..", "a", "..", ".", "."] := by
      decide
    refine ⟨?_, _, top⟩
    rw [steps]
    exact .enter (by decide) rfl (.enter (by decide) rfl (.up (.enter (by decide) rfl
      (.up (.stay (.stay .stop))))))
  have across : Passes sampleTree ⟨"/p/a/../lib"⟩ ["p", "lib"] := by
    have steps : FileTree.steps "/p/a/../lib" = ["p", "a", "..", "lib"] := by decide
    refine ⟨?_, [("index.ts", .file .empty)], rfl⟩
    rw [steps]
    exact .enter (by decide) rfl (.enter (by decide) rfl (.up (.enter (by decide) rfl .stop)))
  have direct : Denotes sampleTree (sampleFile ["a", "main.ts"]) "../a/.././b.d"
      (sampleFile ["b.d.ts"]) ".ts" ⟨"/p/a/../a/.././b.d.ts"⟩ :=
    .direct "../a/.././" "b.d" ⟨"/p/b.d"⟩ (by decide) (by decide) (by decide) (front ▸ back)
      (by decide) (by decide) (by decide)
  have inside : Denotes sampleTree (sampleFile ["a", "main.ts"]) "../lib"
      (sampleFile ["lib", "index.ts"]) ".ts" ⟨"/p/a/../lib/index.ts"⟩ :=
    .index (folder ▸ across) (by decide) (by decide)
  have none : (probes .typeScript
      ((sampleFile ["a", "main.ts"]).folder.join "../a/.././b.d")).takeWhile
        (· ≠ ⟨"/p/a/../a/.././b.d.ts"⟩) = [] := by
    decide
  have one : (probes .typeScript ((sampleFile ["a", "main.ts"]).folder.join "../lib")).takeWhile
      (· ≠ ⟨"/p/a/../lib/index.ts"⟩) = [⟨"/p/a/../lib.ts"⟩] := by
    decide
  have absent : sampleTree.isFile ⟨"/p/a/../lib.ts"⟩ = false :=
    linkFree_sampleTree.isFile_eq_false (by decide)
      (by decide : Path.normalize ⟨"/p/a/../lib.ts"⟩ = .rooted ["p", "lib.ts"])
      (fun bytes mode regular standing => by cases standing)
  refine ⟨files, collected, ?_, ?_⟩
  · refine resolve?_relative tidy_sampleTree wellFormed_sampleTree linkFree_sampleTree (by decide)
      collected main beside (.inl rfl) (by decide) (by decide) (by simp) direct ?_ (by decide)
    exact none ▸ List.forall_mem_nil _
  · refine resolve?_relative tidy_sampleTree wellFormed_sampleTree linkFree_sampleTree (by decide)
      collected main index (.inl rfl) (by decide) (by decide) (by simp) inside ?_ (by decide)
    exact one ▸ List.forall_mem_singleton.2 absent

/-! ## Targets that are too long -/

theorem utf8ByteSize_le_join {text : String} (relative : (Path.mk text).isAbsolute = false)
    (base : Path) : base.text.utf8ByteSize ≤ (base.join text).text.utf8ByteSize := by
  unfold Path.join
  rw [relative, Bool.false_or]
  split
  next empty =>
    rw [String.isEmpty_iff.1 empty]
    exact Nat.zero_le _
  next => split <;> simp only [String.utf8ByteSize_append] <;> omega

theorem isFile_eq_false_of_mem_probes {language : Language}
    (long : pathLimit < base.text.utf8ByteSize) :
    ∀ p ∈ probes language base, tree.isFile p = false := by
  refine forall_mem_probes (FileTree.isFile_eq_false_of_long long) (fun ending => ?_) fun ending => ?_
  · refine FileTree.isFile_eq_false_of_long (long.trans_le ?_)
    simp [Path.withSuffix]
  · refine FileTree.isFile_eq_false_of_long (long.trans_le (utf8ByteSize_le_join ?_ base))
    simp [Path.isAbsolute]

/-- The target `././…/lib`. -/
def longTarget (count : Nat) : String :=
  String.ofList (FileTree.stays count ++ ['l', 'i', 'b'])

theorem toList_text_longTarget (count : Nat) :
    ((sampleFile ["b.d.ts"]).folder.join (longTarget count)).text.toList =
      ['/', 'p'] ++ '/' :: (FileTree.stays count ++ ['l', 'i', 'b']) := by
  have folder : (sampleFile ["b.d.ts"]).folder = ⟨"/p"⟩ := by decide
  have relative : (longTarget count).toList.head? ≠ some '/' := by
    cases count <;> simp [longTarget, FileTree.stays]
  rw [folder, Path.toList_text_join relative (by decide), if_neg (by decide)]
  simp [longTarget]

theorem passes_longTarget (count : Nat) :
    Passes sampleTree ((sampleFile ["b.d.ts"]).folder.join (longTarget count)) ["p", "lib"] := by
  have last : (['/', 'p'] ++ '/' :: (FileTree.stays count ++ ['l', 'i', 'b'])).getLast? ≠ some '/' := by
    have ends : ['/', 'p'] ++ '/' :: (FileTree.stays count ++ ['l', 'i', 'b']) =
        (['/', 'p'] ++ '/' :: (FileTree.stays count ++ ['l', 'i'])) ++ ['b'] := by
      simp
    rw [ends, List.getLast?_concat]
    decide
  have steps : FileTree.steps ((sampleFile ["b.d.ts"]).folder.join (longTarget count)).text =
      "p" :: (List.replicate count "." ++ ["lib"]) := by
    have top : FileTree.segments ['/', 'p'] = ["p"] := by decide
    have inner : FileTree.segments ['l', 'i', 'b'] = ["lib"] := by decide
    rw [FileTree.steps_eq, toList_text_longTarget, if_neg last, FileTree.segments_append_slash,
      FileTree.segments_stays, List.append_nil, top, inner, List.singleton_append]
  have absolute : ((sampleFile ["b.d.ts"]).folder.join (longTarget count)).isAbsolute = true :=
    Path.isAbsolute_join (by decide) _
  refine ⟨?_, [("index.ts", .file .empty)], rfl⟩
  rw [steps, FileTree.origin, if_pos absolute]
  exact .enter (by decide) rfl (FileTree.leads_stays count (.enter (by decide) rfl .stop))

theorem denotes_longTarget (count : Nat) : Denotes sampleTree (sampleFile ["b.d.ts"])
    (longTarget count) (sampleFile ["lib", "index.ts"]) ".ts"
      (((sampleFile ["b.d.ts"]).folder.join (longTarget count)).join "index.ts") := by
  have passes := passes_longTarget count
  refine .index passes (by decide) ?_
  rw [passes.normalize_eq linkFree_sampleTree (Path.isAbsolute_join (by decide) _)]
  decide

theorem isFile_longTarget {count : Nat} (long : pathLimit < 2 * count) :
    ∀ p ∈ probes .typeScript ((sampleFile ["b.d.ts"]).folder.join (longTarget count)),
      sampleTree.isFile p = false := by
  refine isFile_eq_false_of_mem_probes (long.trans_le ?_)
  have size := String.utf8ByteSize_ofList
    ((sampleFile ["b.d.ts"]).folder.join (longTarget count)).text.toList
  rw [String.ofList_toList, toList_text_longTarget] at size
  rw [size]
  have apart := FileTree.utf8Len_stays count
  simp only [String.utf8Len_append, String.utf8Len_cons]
  omega

/-- Without a bound on the length of the path the file may not be found. -/
theorem resolve?_relative_long :
    ¬ ∀ (tree : FileTree) (root : Path) (aliases : AliasTable) (files : List SourceFile)
        (file other : SourceFile) (target ending : String) (candidate : Path),
      tree.top.Tidy → tree.WellFormed → LinkFree tree.top → root.isAbsolute = true →
      SourceFile.collect tree root = .ok files → file ∈ files → other ∈ files →
      (file.language = .typeScript ∨ file.language = .javaScript) →
      target.toList.head? = some '.' → ending ∈ file.language.probeEndings →
      (∀ entry ∈ aliases, entry.rest? target.toList = none) →
      Denotes tree file target other ending candidate →
      (∀ earlier ∈ (probes file.language (file.folder.join target)).takeWhile (· ≠ candidate),
        tree.isFile earlier = false) →
      (ofProject root aliases (files.map (·.relativePath))).resolve? tree file target =
        some other.relativePath := by
  intro all
  obtain ⟨files, collected, -, beside, index⟩ := exists_sampleFiles
  have dotted : ∀ count, (longTarget (count + 1)).toList.head? = some '.' := by
    intro count
    simp [longTarget, FileTree.stays]
  -- From here on it does not matter how many segments there are.
  obtain ⟨count, long, relative⟩ : ∃ count, pathLimit < 2 * count ∧
      (longTarget count).toList.head? = some '.' := ⟨2100, by decide, dotted 2099⟩
  have silent := isFile_longTarget long
  have found := all sampleTree sampleRoot [] files (sampleFile ["b.d.ts"])
    (sampleFile ["lib", "index.ts"]) (longTarget count) ".ts" _ tidy_sampleTree
    wellFormed_sampleTree linkFree_sampleTree (by decide) collected beside index (.inl rfl)
    relative (by decide) (by simp) (denotes_longTarget count)
    fun earlier tried => silent earlier ((List.takeWhile_prefix _).subset tried)
  have unled : (ofProject sampleRoot [] (files.map (·.relativePath))).path? sampleTree
      (sampleFile ["b.d.ts"]) (longTarget count) = none := by
    rw [path?_relative (.inl rfl) relative (by simp [ofProject])]
    exact List.find?_eq_none.2 fun p tried => by simp [silent p tried]
  rw [resolve?, unled] at found
  cases found

end FileGraph.Resolver
