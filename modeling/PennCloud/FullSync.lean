import PennCloud.CacheSync
import PennCloud.CacheSteps

/-!
# A full sync reproduces the storage folder

The primary sends a message for each directory and each file below its storage
folder, and a directory before what is in it. The secondary, which has emptied
its own folder, takes them in one after the other.
-/

namespace FullSync

open Text Pattern FileTree KvInterface UnorderedMap KvCache CacheSync CacheSteps

/-- An order in which the entries below the storage folder can be listed. -/
structure Listed (n : Node) (listing : List Path) : Prop where
  nodup : listing.Nodup
  entries : ∀ q, home n.port ++ q ∈ listing ↔ q ≠ [] ∧ n.fs.lookup (home n.port ++ q) ≠ none
  below : ∀ p ∈ listing, home n.port <+: p
  ordered : listing.Pairwise fun p q => ¬ q <+: p

/-- The name of an entry that can be sent. -/
structure SentName (name : Str) : Prop where
  nonempty : name ≠ []
  notDot : name ≠ ".".toList
  notDotDot : name ≠ "..".toList
  alphabet : ∀ c ∈ name, nameChar c = true

instance (name : Str) : Decidable (SentName name) :=
  decidable_of_iff (name ≠ [] ∧ name ≠ ".".toList ∧ name ≠ "..".toList ∧
      ∀ c ∈ name, nameChar c = true)
    ⟨fun ⟨nonempty, notDot, notDotDot, alphabet⟩ => ⟨nonempty, notDot, notDotDot, alphabet⟩,
      fun h => ⟨h.nonempty, h.notDot, h.notDotDot, h.alphabet⟩⟩

theorem SentName.plain {name : Str} (h : SentName name) : PlainName name :=
  ⟨h.nonempty, h.notDot, h.notDotDot, fun slash => absurd (h.alphabet _ slash) (by decide)⟩

/-- The type and the content that are sent of an entry. -/
def typeOf : Entry → Str
  | .dir => kDir
  | .file _ => kFile

def contentOf : Entry → Str
  | .dir => []
  | .file text => text

/-- The message about an entry. -/
def messageOf (port : Nat) (p : Path) (e : Entry) : Str :=
  transportHeader (sentName port p) (typeOf e) (contentOf e).length ++ contentOf e

/-- The sizes that the secondary keeps in an `int`. -/
def SizesFit (port : Nat) (p : Path) (e : Entry) : Prop :=
  (contentOf e).length ≤ INT_MAX ∧
    (transportHeader (sentName port p) (typeOf e) (contentOf e).length).length ≤ INT_MAX

instance (port : Nat) (p : Path) (e : Entry) : Decidable (SizesFit port p e) :=
  inferInstanceAs (Decidable (_ ∧ _))

/-! The transport header -/

theorem reads_transportHeader (filename : Str) {type : Str} (size : Nat) (rest : Str)
    (nonempty : filename ≠ []) (path : ∀ c ∈ filename, pathChar c = true)
    (letters : type ≠ [] ∧ ∀ c ∈ type, c.isAlpha = true) :
    Reads kFileTransportHeader (transportHeader filename type size)
      [filename, type, toDecimal size] rest := by
  have spelled : transportHeader filename type size = "KvStoreSync".toList ++ ' ' ::
      ("Filename:".toList ++ ' ' :: (filename ++ ' ' :: ("Type:".toList ++ ' ' ::
      (type ++ ' ' :: ("size:".toList ++ ' ' :: (toDecimal size ++ "\r\n".toList)))))) := by
    unfold transportHeader
    simp
  rw [spelled]
  unfold kFileTransportHeader
  refine .lit _ (.one (by decide) (.lit _ (.one (by decide) ?_)))
  refine .run path (List.length_pos_iff.mpr nonempty) (by simp; decide) (.one (by decide) ?_)
  refine .lit _ (.one (by decide) ?_)
  refine .run letters.2 (List.length_pos_iff.mpr letters.1) (by simp) (.one (by decide) ?_)
  refine .lit _ (.one (by decide) ?_)
  refine .run (fun _ => isDigit_of_mem_toDecimal)
    (List.length_pos_iff.mpr (toDecimal_ne_nil size)) (by simp) ?_
  simpa using Reads.lit "\r\n".toList (.nil rest)

theorem letters_typeOf (e : Entry) : typeOf e ≠ [] ∧ ∀ c ∈ typeOf e, c.isAlpha = true := by
  cases e with
  | dir => exact ⟨by decide +kernel, by decide +kernel⟩
  | file text => exact ⟨by simp [typeOf, kFile], by simp [typeOf, kFile]⟩

section Message
variable {port : Nat} {q : Path} (names : ∀ name ∈ q, SentName name) (nonempty : q ≠ [])

theorem sentName_append : sentName port (home port ++ q) = ['/'].intercalate q := by
  rw [sentName, List.drop_left]

include names

theorem pathChar_intercalate : ∀ c ∈ ['/'].intercalate q, pathChar c = true := by
  induction q with
  | nil => simp
  | cons name q ih =>
    have first : ∀ c ∈ name, pathChar c = true := fun c hc => by
      simp [pathChar, (names name List.mem_cons_self).alphabet c hc]
    cases q with
    | nil => simpa using first
    | cons next q =>
      intro c hc
      rw [List.intercalate_cons_cons, List.mem_append, List.mem_append] at hc
      rcases hc with (own | slash) | later
      · exact first c own
      · rw [List.mem_singleton.mp slash]
        decide
      · exact ih (fun other h => names other (List.mem_cons_of_mem name h)) c later

include nonempty

theorem intercalate_ne_nil : ['/'].intercalate q ≠ [] := by
  cases q with
  | nil => exact absurd rfl nonempty
  | cons name q =>
    have first := (names name List.mem_cons_self).nonempty
    cases q with
    | nil => simpa using first
    | cons next q =>
      rw [List.intercalate_cons_cons]
      simp

theorem resolve_sentName (other : Nat) :
    resolve (PREFIX other ++ sentName port (home port ++ q)) = home other ++ q := by
  rw [sentName_append, PREFIX_append, resolve_entries _ nonempty fun name h => (names name h).plain,
    resolve_home]

/-- The secondary reads a message as it was meant. -/
theorem match_messageOf {e : Entry} (fits : SizesFit port (home port ++ q) e) :
    matchHeaderAndExtractContent (messageOf port (home port ++ q) e) =
      some (some ⟨sentName port (home port ++ q), typeOf e, (contentOf e).length, contentOf e⟩) := by
  have reads := reads_transportHeader (sentName port (home port ++ q))
    (contentOf e).length (contentOf e) (by rw [sentName_append]; exact intercalate_ne_nil names nonempty)
    (by rw [sentName_append]; exact pathChar_intercalate names) (letters_typeOf e)
  rw [matchHeaderAndExtractContent, messageOf, search_of_reads reads]
  simp only [stoi_toDecimal, if_pos fits.1, Nat.zero_add, intPosition, if_pos fits.2,
    Option.bind_some]
  rw [substr_append _ _ (by simp)]
  rfl

end Message

/-! Directories on the way -/

/-- Everything above an entry is a directory. -/
theorem dir_above {t : Tree} (closed : Closed t) {p r : Path} (h : r <+: p) (ne : r ≠ p)
    (present : t.lookup p ≠ none) : t.lookup r = some .dir := by
  obtain ⟨q, rfl⟩ := h
  induction q using List.reverseRecOn with
  | nil => simp at ne
  | append_singleton q name ih =>
    have parent := closed _ (by simp) present
    rw [← List.append_assoc, List.dropLast_concat] at parent
    by_cases last : q = []
    · subst last
      rwa [List.append_nil] at parent
    · exact ih (by simpa using last) (by simp [parent])

theorem lookup_createDirectories {t : Tree} {p : Path} (root : t.lookup [] = some .dir)
    (free : ∀ r, r <+: p → t.lookup r = none ∨ t.lookup r = some .dir) (r : Path) :
    (createDirectories t p).lookup r = if r <+: p then some .dir else t.lookup r := by
  induction p using List.reverseRecOn generalizing r with
  | nil =>
    have unchanged : createDirectories t [] = t := by
      simp [createDirectories, Effect.apply, root]
    rw [unchanged]
    split
    · rename_i h
      rw [List.prefix_nil.mp h, root]
    · rfl
  | append_singleton p name ih =>
    have above := ih fun r h => free r (h.trans (List.prefix_append p [name]))
    have unfolded : createDirectories t (p ++ [name]) =
        Effect.apply (createDirectories t p) (.makeDir (p ++ [name])) := by
      simp [createDirectories, List.inits_append]
    have below : ¬ p ++ [name] <+: p := fun h => by
      have shorter := h.length_le
      rw [List.length_append, List.length_singleton] at shorter
      omega
    have last : (createDirectories t p).lookup (p ++ [name]) = t.lookup (p ++ [name]) := by
      rw [above, if_neg below]
    have parent : (createDirectories t p).lookup (p ++ [name]).dropLast = some .dir := by
      rw [List.dropLast_concat, above, if_pos (List.prefix_refl p)]
    have prefixes : r <+: p ++ [name] ↔ r = p ++ [name] ∨ r <+: p := List.prefix_concat_iff
    rw [unfolded, Effect.apply]
    rcases free (p ++ [name]) (List.prefix_refl _) with absent | present
    · rw [if_pos ⟨last.trans absent, parent⟩]
      by_cases same : r = p ++ [name]
      · rw [same, AList.lookup_insert, if_pos (List.prefix_refl _)]
      · rw [AList.lookup_insert_ne same, above]
        simp only [prefixes, same, false_or]
    · rw [if_neg fun h => by simp [last, present] at h]
      by_cases same : r = p ++ [name]
      · rw [same, last, if_pos (List.prefix_refl _), present]
      · rw [above]
        simp only [prefixes, same, false_or]

/-! The secondary -/

/-- The folder of the secondary holds the entries that were received, and nothing else has
changed. -/
structure Received (n s : Node) (done : List Path) (t : Tree) : Prop where
  entries : ∀ q, q ≠ [] → t.lookup (home s.port ++ q) =
    if home n.port ++ q ∈ done then n.fs.lookup (home n.port ++ q) else none
  root : t.lookup (home s.port) = none ∨ t.lookup (home s.port) = some .dir
  outside : ∀ p, ¬ home s.port <+: p → t.lookup p = s.fs.lookup p

section Receive
variable {n s : Node} {done todo listing : List Path} {p q : Path} {e : Entry} {t : Tree}

/-- What is on the way to the next entry has been received. -/
theorem above_received (closed : Closed n.fs) (listed : Listed n (done ++ (home n.port ++ q) :: todo))
    {r : Path} (h : r <+: q) (ne : r ≠ q) (nonempty : r ≠ []) :
    home n.port ++ r ∈ done ∧ n.fs.lookup (home n.port ++ r) = some .dir := by
  have present := ((listed.entries q).mp (by simp)).2
  have above : home n.port ++ r <+: home n.port ++ q := (List.prefix_append_right_inj _).mpr h
  have dir := dir_above closed above (by simpa using ne) present
  have member := (listed.entries r).mpr ⟨nonempty, by simp [dir]⟩
  refine ⟨?_, dir⟩
  rcases List.mem_append.mp member with old | later
  · exact old
  · rcases List.mem_cons.mp later with same | todo
    · exact absurd (List.append_cancel_left same) ne
    · have order := (List.pairwise_append.mp listed.ordered).2.1
      exact absurd above ((List.pairwise_cons.mp order).1 _ todo)

theorem free_received (closed : Closed n.fs)
    (listed : Listed n (done ++ (home n.port ++ q) :: todo)) (received : Received n s done t)
    (ready : ∀ r, r <+: home s.port → r ≠ home s.port → s.fs.lookup r = some .dir) :
    ∀ r, r <+: home s.port ++ q → t.lookup r = none ∨ t.lookup r = some .dir := by
  intro r h
  by_cases inside : home s.port <+: r
  · obtain ⟨q', rfl⟩ := inside
    have below : q' <+: q := (List.prefix_append_right_inj _).mp h
    by_cases empty : q' = []
    · subst empty
      rw [List.append_nil]
      exact received.root
    · rw [received.entries q' empty]
      by_cases same : q' = q
      · subst same
        have fresh : home n.port ++ q' ∉ done := fun old => by
          have nodup := listed.nodup
          rw [List.nodup_append] at nodup
          exact nodup.2.2 _ old _ List.mem_cons_self rfl
        exact .inl (if_neg fresh)
      · obtain ⟨old, dir⟩ := above_received closed listed below same empty
        exact .inr ((if_pos old).trans dir)
  · rw [received.outside r inside]
    refine .inr (ready r ?_ fun same => inside (same ▸ List.prefix_refl _))
    rcases List.prefix_or_prefix_of_prefix h (List.prefix_append (home s.port) q) with up | down
    · exact up
    · exact absurd down inside

/-- The entries with one more received. -/
theorem received_entry {u : Tree} (closed : Closed n.fs)
    (listed : Listed n (done ++ (home n.port ++ q) :: todo)) (received : Received n s done t)
    (nonempty : q ≠ []) (found : n.fs.lookup (home n.port ++ q) = some e)
    (lookup : ∀ r, u.lookup r = if r = home s.port ++ q then some e
      else if r <+: home s.port ++ q then some .dir else t.lookup r)
    (ready : ∀ r, r <+: home s.port → r ≠ home s.port → s.fs.lookup r = some .dir) :
    Received n s (done ++ [home n.port ++ q]) u := by
  refine ⟨fun r hr => ?_, ?_, fun p outside => ?_⟩
  · rw [lookup]
    by_cases same : r = q
    · rw [same, if_pos rfl, if_pos (by simp), found]
    · have other : home s.port ++ r ≠ home s.port ++ q := by simpa using same
      have member : home n.port ++ r ∈ done ++ [home n.port ++ q] ↔ home n.port ++ r ∈ done := by
        simp [same]
      rw [if_neg other, received.entries r hr]
      simp only [member]
      split
      · rename_i prefixed
        have above := (List.prefix_append_right_inj _).mp prefixed
        obtain ⟨old, dir⟩ := above_received closed listed above same hr
        rw [if_pos old, dir]
      · rfl
  · rw [lookup, if_neg (by simpa using nonempty), if_pos (List.prefix_append _ _)]
    exact .inr rfl
  · have other : p ≠ home s.port ++ q := fun same => outside (same ▸ List.prefix_append _ _)
    rw [lookup, if_neg other, received.outside p outside]
    split
    · rename_i above
      refine (ready p ?_ fun same => outside (same ▸ List.prefix_refl _)).symm
      rcases List.prefix_or_prefix_of_prefix above (List.prefix_append (home s.port) q) with up | down
      · exact up
      · exact absurd down outside
    · rfl

theorem home_ne_nil (port : Nat) : home port ≠ [] := List.cons_ne_nil _ _

/-- The secondary takes in the next entry. -/
theorem receiveEntry_next (closed : Closed n.fs)
    (listed : Listed n (done ++ (home n.port ++ q) :: todo)) (received : Received n s done t)
    (found : n.fs.lookup (home n.port ++ q) = some e) (names : ∀ name ∈ q, SentName name)
    (ready : ∀ r, r <+: home s.port → r ≠ home s.port → s.fs.lookup r = some .dir) (size : Nat) :
    ∃ u, Node.receiveEntry { s with fs := t }
        ⟨sentName n.port (home n.port ++ q), typeOf e, size, contentOf e⟩ =
          some (.finished, { s with fs := u }) ∧
      Received n s (done ++ [home n.port ++ q]) u := by
  have nonempty := ((listed.entries q).mp (by simp)).1
  have path : resolve (PREFIX s.port ++ sentName n.port (home n.port ++ q)) = home s.port ++ q :=
    resolve_sentName names nonempty s.port
  have free := free_received closed listed received ready
  have root : t.lookup [] = some .dir := by
    have outside : ¬ home s.port <+: [] := fun h => home_ne_nil _ (List.prefix_nil.mp h)
    rw [received.outside [] outside]
    exact ready [] List.nil_prefix (home_ne_nil _).symm
  have absent : t.lookup (home s.port ++ q) = none := by
    have nodup := listed.nodup
    rw [List.nodup_append] at nodup
    rw [received.entries q nonempty, if_neg fun old => nodup.2.2 _ old _ List.mem_cons_self rfl]
  cases e with
  | dir =>
    have lookup := lookup_createDirectories root free
    refine ⟨createDirectories t (home s.port ++ q), ?_, received_entry closed listed received nonempty
      found (fun r => ?_) ready⟩
    · have made : (createDirectories t (home s.port ++ q)).lookup (home s.port ++ q) = some .dir := by
        rw [lookup, if_pos (List.prefix_refl _)]
      simp only [Node.receiveEntry, typeOf, if_true]
      rw [path, if_pos made, if_pos absent]
    · rw [lookup]
      by_cases same : r = home s.port ++ q
      · rw [if_pos same, same, if_pos (List.prefix_refl _)]
      · rw [if_neg same]
  | file text =>
    have shorter := List.dropLast_prefix (home s.port ++ q)
    have lookup := lookup_createDirectories root fun r h => free r (h.trans shorter)
    have whole : home s.port ++ q ≠ [] := by simp [nonempty]
    have self : ¬ home s.port ++ q <+: (home s.port ++ q).dropLast := fun h => by
      have length := h.length_le
      rw [List.length_dropLast] at length
      have positive := List.length_pos_iff.mpr whole
      omega
    have opens : writable (createDirectories t (home s.port ++ q).dropLast) (home s.port ++ q) =
        true := by
      simp only [writable, lookup, if_pos (List.prefix_refl _), if_neg self, absent]
      rfl
    have other : kFile ≠ kDir := by decide +kernel
    refine ⟨(createDirectories t (home s.port ++ q).dropLast).insert (home s.port ++ q) (.file text),
      ?_, received_entry closed listed received nonempty found (fun r => ?_) ready⟩
    · have made : (createDirectories t (home s.port ++ q).dropLast).lookup
          (home s.port ++ q).dropLast = some .dir := by
        rw [lookup, if_pos (List.prefix_refl _)]
      simp only [Node.receiveEntry, typeOf, if_neg other, if_true]
      rw [path, if_pos made, overwriteFile, opens, contentOf, apply_write text opens, if_pos rfl]
    · by_cases same : r = home s.port ++ q
      · rw [if_pos same, same, AList.lookup_insert]
      · rw [if_neg same, AList.lookup_insert_ne same, lookup]
        have prefixes : r <+: (home s.port ++ q).dropLast ↔ r <+: home s.port ++ q := by
          obtain ⟨l, a, split⟩ := List.eq_nil_or_concat' (home s.port ++ q) |>.resolve_left whole
          rw [split] at same ⊢
          rw [List.dropLast_concat, List.prefix_concat_iff]
          simp [same]
        simp only [prefixes]

end Receive

/-- The messages about the entries. -/
def messages (n : Node) (listing : List Path) : List Str :=
  listing.filterMap fun p => (n.fs.lookup p).map (messageOf n.port p)

theorem sendEntries_eq (n : Node) {listing : List Path}
    (present : ∀ p ∈ listing, n.fs.lookup p ≠ none) :
    Node.sendEntries n listing = (.finished, messages n listing) := by
  induction listing with
  | nil => rfl
  | cons p rest ih =>
    have tail := ih fun r h => present r (List.mem_cons_of_mem p h)
    obtain ⟨e, found⟩ := Option.ne_none_iff_exists'.mp (present p List.mem_cons_self)
    have all : messages n (p :: rest) = messageOf n.port p e :: messages n rest := by
      rw [messages, List.filterMap_cons, found]
      rfl
    rw [Node.sendEntries, tail, all]
    cases e with
    | dir =>
      rw [if_pos found, messageOf]
      simp [typeOf, contentOf]
    | file text =>
      have text : content n.fs p = some text := by rw [content, found]
      rw [if_neg (by simp [found]), Node.readFileAndWriteTo, text]
      rfl

theorem messageOf_ne {port : Nat} {p : Path} {e : Entry} {word : Str}
    (other : word.head? ≠ some 'K') : messageOf port p e ≠ word := by
  obtain ⟨rest, begins⟩ : ∃ rest, transportHeader (sentName port p) (typeOf e)
      (contentOf e).length = 'K' :: rest :=
    ⟨"vStoreSync Filename: ".toList ++ (sentName port p ++ (" Type: ".toList ++ (typeOf e ++
      (" size: ".toList ++ (toDecimal (contentOf e).length ++ "\r\n".toList))))), by
      unfold transportHeader
      simp⟩
  rw [messageOf, begins]
  rintro rfl
  exact other rfl

section Run
variable {n s : Node} {done todo listing : List Path} {t : Tree}

theorem receive_all (closed : Closed n.fs) (listed : Listed n (done ++ todo))
    (received : Received n s done t)
    (names : ∀ q, home n.port ++ q ∈ todo → ∀ name ∈ q, SentName name)
    (fits : ∀ p ∈ todo, ∀ e, n.fs.lookup p = some e → SizesFit n.port p e)
    (ready : ∀ r, r <+: home s.port → r ≠ home s.port → s.fs.lookup r = some .dir) :
    ∃ u, Received n s (done ++ todo) u ∧ ∀ rest,
      Node.performFullSyncFromPrimary { s with fs := t } (messages n todo ++ rest) =
        Node.performFullSyncFromPrimary { s with fs := u } rest := by
  induction todo generalizing done t with
  | nil => exact ⟨t, by rwa [List.append_nil], fun rest => rfl⟩
  | cons p todo ih =>
    obtain ⟨q, rfl⟩ := listed.below p (by simp)
    obtain ⟨nonempty, present⟩ := (listed.entries q).mp (by simp)
    obtain ⟨e, found⟩ := Option.ne_none_iff_exists'.mp present
    have own := names q List.mem_cons_self
    have fit := fits _ List.mem_cons_self e found
    obtain ⟨u, step, received'⟩ := receiveEntry_next closed listed received found own ready
      (contentOf e).length
    have listed' : Listed n ((done ++ [home n.port ++ q]) ++ todo) := by
      rwa [List.append_assoc]
    obtain ⟨v, final, run⟩ := ih listed' received'
      (fun r h => names r (List.mem_cons_of_mem _ h))
      fun r h => fits r (List.mem_cons_of_mem _ h)
    refine ⟨v, by rwa [List.append_assoc] at final, fun rest => ?_⟩
    have all : messages n ((home n.port ++ q) :: todo) =
        messageOf n.port (home n.port ++ q) e :: messages n todo := by
      rw [messages, List.filterMap_cons, found]
      rfl
    rw [all, List.cons_append, Node.performFullSyncFromPrimary,
      if_neg (messageOf_ne (by decide +kernel)), if_neg (messageOf_ne (by decide +kernel)),
      match_messageOf own nonempty fit]
    simp only [Option.bind_some, step, if_true]
    exact run rest

end Run

/-- Everything the primary sends is accepted, and the folder of the secondary is then the
folder of the primary. -/
theorem full_sync_exact (n s : Node) (listing : List Path) (closed : Closed n.fs)
    (folder : n.fs.lookup (home n.port) = some .dir) (listed : Listed n listing)
    (names : ∀ p ∈ listing, ∀ name ∈ p.drop (home n.port).length, SentName name)
    (fits : ∀ p ∈ listing, ∀ e ∈ n.fs.lookup p, SizesFit n.port p e)
    (ready : ∀ r, r <+: home s.port → r ≠ home s.port → s.fs.lookup r = some .dir) :
    ∃ sent fs, Node.primarySendAllContent n listing = some (.finished, sent) ∧
      (∀ rest, Node.performFullSyncFromPrimary (Node.resetLocalStateForFullSync s) (sent ++ rest) =
        Node.performFullSyncFromPrimary
          { Node.resetLocalStateForFullSync s with fs := fs } rest) ∧
      Node.performFullSyncFromPrimary (Node.resetLocalStateForFullSync s) (sent ++ [kSyncDone]) =
        Node.replayLoggings { Node.resetLocalStateForFullSync s with fs := fs } ∧
      (∀ q, q ≠ [] → fs.lookup (home s.port ++ q) = n.fs.lookup (home n.port ++ q)) ∧
      ∀ p, ¬ home s.port <+: p → fs.lookup p = s.fs.lookup p := by
  have outside : ∀ p, ¬ home s.port <+: p →
      (Node.resetLocalStateForFullSync s).fs.lookup p = s.fs.lookup p := fun p h =>
    (lookup_removeAll _ _ _).trans (if_neg h)
  have removed : ∀ q, (Node.resetLocalStateForFullSync s).fs.lookup (home s.port ++ q) = none :=
    fun q => (lookup_removeAll _ _ _).trans (if_pos (List.prefix_append _ _))
  have start : Received n (Node.resetLocalStateForFullSync s) []
      (Node.resetLocalStateForFullSync s).fs := by
    refine ⟨fun q _ => removed q, .inl ?_, fun _ _ => rfl⟩
    have root := removed []
    rwa [List.append_nil] at root
  rw [← List.nil_append listing] at listed
  obtain ⟨fs, final, run⟩ := receive_all closed listed start
    (fun q h => by
      have own := names _ h
      rwa [List.drop_left] at own) fits fun r above other => by
      rw [outside r fun h => other (above.eq_of_length_le h.length_le), ready r above other]
  have entries : ∀ q, q ≠ [] → fs.lookup (home s.port ++ q) = n.fs.lookup (home n.port ++ q) := by
    intro q nonempty
    refine (final.entries q nonempty).trans ?_
    split
    · rfl
    · rename_i absent
      have notListed := mt (listed.entries q).mpr absent
      rw [not_and, not_not] at notListed
      exact (notListed nonempty).symm
  refine ⟨messages n listing, fs, ?_, run, ?_, entries, fun p h => ?_⟩
  · rw [Node.primarySendAllContent, if_neg (by simp [folder]), sendEntries_eq]
    intro p hp
    obtain ⟨q, rfl⟩ := listed.below p hp
    exact ((listed.entries q).mp hp).2
  · rw [run, Node.performFullSyncFromPrimary, if_pos rfl]
  · exact (final.outside p h).trans (outside p h)

/-! A small folder -/

/-- What is below the storage folder. -/
def below (n : Node) : List Path :=
  n.fs.keys.filter fun p => home n.port <+: p ∧ p ≠ home n.port

theorem listed_of_perm {n : Node} {listing : List Path} (perm : listing.Perm (below n))
    (ordered : listing.Pairwise fun p q => ¬ q <+: p) : Listed n listing := by
  refine ⟨perm.nodup_iff.mpr (n.fs.keys_nodup.filter _), fun q => ?_, fun p hp => ?_, ordered⟩
  · rw [perm.mem_iff, below, List.mem_filter, lookup_ne_none]
    simp [and_comm]
  · have mem := (List.mem_filter.mp (perm.mem_iff.mp hp)).2
    simp only [decide_eq_true_eq] at mem
    exact mem.1

/-- A primary with a file whose content is the word that ends a sync. -/
def primary : Node :=
  { smallNode [bob] with fs :=
    (smallNode [bob]).fs.insert (home 7000 ++ [bob, "chunk_0".toList]) (.file kSyncDone) }

theorem full_sync_small : ∃ sent fs,
    Node.primarySendAllContent primary (below primary).reverse = some (.finished, sent) ∧
      Node.performFullSyncFromPrimary (Node.resetLocalStateForFullSync (nodeAt 7001 []))
          (sent ++ [kSyncDone]) =
        Node.replayLoggings { Node.resetLocalStateForFullSync (nodeAt 7001 []) with fs := fs } ∧
      fs.lookup (home 7001 ++ [bob, "chunk_0".toList]) = some (.file kSyncDone) := by
  have ready : ∀ r ∈ (home 7001).inits, r ≠ home 7001 → (nodeAt 7001 []).fs.lookup r = some .dir := by
    decide +kernel
  obtain ⟨sent, fs, h, -, run, entries, -⟩ := full_sync_exact primary (nodeAt 7001 [])
    (below primary).reverse (by decide +kernel) (by decide +kernel)
    (listed_of_perm (List.reverse_perm _) (by decide +kernel)) (by decide +kernel)
    (by decide +kernel) fun r above => ready r ((List.mem_inits _ _).mpr above)
  refine ⟨sent, fs, h, run, (entries [bob, "chunk_0".toList] (by simp)).trans ?_⟩
  decide +kernel

end FullSync
