import ComputerNetworking.FileServer.Handler

/-!
# The links of a listing

The page of a directory has a link for each of its files and directories, which begins
with the request path as it was asked for. A client sends the reference of a link with
`%20` for a space. The link leads back to its entry exactly when the request path ends
with a separator and the name of the entry is not changed by the decoding of `%20`
(`leadsBack_iff`).
-/

set_option autoImplicit false

namespace ComputerNetworking.FileServer

open ComputerNetworking.Foundations

/-! ## Decoding -/

/-- The reference as a client sends it: `%20` for a space. -/
def encodeSpaces : Text → Text
  | [] => []
  | c :: t => if c = ' ' then '%' :: '2' :: '0' :: encodeSpaces t else c :: encodeSpaces t

section Decoding

variable {t u : Text} {c : Char}

/-- A character other than the space comes from itself. -/
theorem replaceSpaces_eq_cons (h : replaceSpaces t = c :: u) (hc : c ≠ ' ') :
    ∃ t', t = c :: t' ∧ replaceSpaces t' = u := by
  fun_cases replaceSpaces t with
  | case1 t' =>
      rw [replaceSpaces] at h
      exact absurd (List.cons.inj h).1.symm hc
  | case2 d t' hno =>
      rw [replaceSpaces.eq_2 d t' hno] at h
      obtain ⟨rfl, hu⟩ := List.cons.inj h
      exact ⟨t', rfl, hu⟩
  | case3 => exact absurd h.symm (List.cons_ne_nil c u)

theorem replaceSpaces_eq_nil (h : replaceSpaces t = []) : t = [] := by
  fun_cases replaceSpaces t with
  | case1 t' =>
      rw [replaceSpaces] at h
      exact absurd h (List.cons_ne_nil _ _)
  | case2 d t' hno =>
      rw [replaceSpaces.eq_2 d t' hno] at h
      exact absurd h (List.cons_ne_nil _ _)
  | case3 => rfl

theorem encodeSpaces_eq_cons (h : encodeSpaces t = c :: u) (hc : c ≠ '%') :
    ∃ t', t = c :: t' ∧ encodeSpaces t' = u := by
  cases t with
  | nil => exact absurd h.symm (List.cons_ne_nil c u)
  | cons d t =>
      rw [encodeSpaces] at h
      split at h
      · exact absurd (List.cons.inj h).1.symm hc
      · obtain ⟨rfl, hu⟩ := List.cons.inj h
        exact ⟨t, rfl, hu⟩

theorem replaceSpaces_cons_of_ne (hc : c ≠ '%') (t : Text) :
    replaceSpaces (c :: t) = c :: replaceSpaces t :=
  replaceSpaces.eq_2 c t fun _ hpercent => absurd hpercent hc

/-- What the client has encoded is decoded as the text itself would be. -/
theorem replaceSpaces_encodeSpaces (t : Text) :
    replaceSpaces (encodeSpaces t) = replaceSpaces t := by
  induction t using replaceSpaces.induct with
  | case1 t ih =>
      show replaceSpaces ('%' :: '2' :: '0' :: encodeSpaces t) = _
      rw [replaceSpaces, ih, replaceSpaces]
  | case2 c t hno ih =>
      rw [replaceSpaces.eq_2 c t hno, encodeSpaces]
      split
      · next hspace => rw [replaceSpaces, ih, hspace]
      · rw [replaceSpaces.eq_2, ih]
        intro u hpercent hu
        -- the digits behind a percent sign are no part of an encoding
        obtain ⟨t₁, rfl, h₁⟩ := encodeSpaces_eq_cons hu (by decide)
        obtain ⟨t₂, rfl, -⟩ := encodeSpaces_eq_cons h₁ (by decide)
        exact hno t₂ hpercent rfl
  | case3 => rfl

theorem replaceSpaces_eq_self_iff (t : Text) :
    replaceSpaces t = t ↔ ¬"%20".toList <:+: t := by
  induction t using replaceSpaces.induct with
  | case1 t ih =>
      rw [replaceSpaces]
      apply iff_of_false
      · intro h
        exact absurd (List.cons.inj h).1 (by decide)
      · exact not_not_intro ⟨[], t, rfl⟩
  | case2 c t hno ih =>
      have hstart : ¬"%20".toList <+: c :: t := by
        rintro ⟨u, hu⟩
        obtain ⟨hc, ht⟩ := List.cons.inj hu
        exact hno u hc.symm ht.symm
      rw [replaceSpaces.eq_2 c t hno, List.cons_inj_right, List.infix_cons_iff, ih]
      exact not_congr (or_iff_right hstart).symm
  | case3 => exact iff_of_true rfl (by decide)

/-- What is decoded holds no `%20`. -/
theorem replaceSpaces_replaceSpaces (t : Text) :
    replaceSpaces (replaceSpaces t) = replaceSpaces t := by
  induction t using replaceSpaces.induct with
  | case1 t ih => rw [replaceSpaces, replaceSpaces_cons_of_ne (by decide), ih]
  | case2 c t hno ih =>
      rw [replaceSpaces.eq_2 c t hno, replaceSpaces.eq_2, ih]
      intro u hpercent hu
      obtain ⟨t₁, rfl, h₁⟩ := replaceSpaces_eq_cons hu (by decide)
      obtain ⟨t₂, rfl, -⟩ := replaceSpaces_eq_cons h₁ (by decide)
      exact hno t₂ hpercent rfl
  | case3 => rfl

/-- A character that is no part of `%20` divides what is decoded. -/
theorem replaceSpaces_append_cons (t u : Text) (hc : c ∉ "%20".toList) :
    replaceSpaces (t ++ c :: u) = replaceSpaces t ++ c :: replaceSpaces u := by
  have hmem : c ≠ '%' ∧ c ≠ '2' ∧ c ≠ '0' := by
    refine ⟨?_, ?_, ?_⟩ <;> rintro rfl <;> exact hc (by decide)
  induction t using replaceSpaces.induct with
  | case1 t ih =>
      show replaceSpaces ('%' :: '2' :: '0' :: (t ++ c :: u)) = _
      rw [replaceSpaces, ih, replaceSpaces]
      rfl
  | case2 d t hno ih =>
      rw [List.cons_append, replaceSpaces.eq_2, replaceSpaces.eq_2 d t hno, ih]
      · rfl
      · intro v hpercent hv
        -- the character is neither of the two digits, so both are in the first part
        cases t with
        | nil => exact hmem.2.1 (List.cons.inj hv).1
        | cons d₁ t =>
            obtain ⟨h₁, hv⟩ := List.cons.inj hv
            cases t with
            | nil => exact hmem.2.2 (List.cons.inj hv).1
            | cons d₂ t =>
                obtain ⟨h₂, -⟩ := List.cons.inj hv
                exact hno t hpercent (by rw [h₁, h₂])
  | case3 => exact replaceSpaces_cons_of_ne hmem.1 u

theorem count_dot_replaceSpaces (t : Text) : (replaceSpaces t).count '.' = t.count '.' := by
  induction t using replaceSpaces.induct with
  | case1 t ih =>
      rw [replaceSpaces]
      simp only [List.count_cons, ih]
      rfl
  | case2 c t hno ih => rw [replaceSpaces.eq_2 c t hno, List.count_cons, List.count_cons, ih]
  | case3 => rfl

theorem mem_replaceSpaces (h : c ∈ replaceSpaces t) : c ∈ t ∨ c = ' ' := by
  induction t using replaceSpaces.induct with
  | case1 t ih =>
      rw [replaceSpaces] at h
      rcases List.mem_cons.1 h with hspace | h
      · exact Or.inr hspace
      · apply (ih h).imp_left
        intro hmem
        exact List.mem_cons_of_mem _ (List.mem_cons_of_mem _ (List.mem_cons_of_mem _ hmem))
  | case2 d t hno ih =>
      rw [replaceSpaces.eq_2 d t hno] at h
      rcases List.mem_cons.1 h with rfl | h
      · exact Or.inl List.mem_cons_self
      · exact (ih h).imp_left (List.mem_cons_of_mem d)
  | case3 => exact absurd h List.not_mem_nil

end Decoding

/-! ## Names -/

/-- A name that a file can have: no separator in it, and not one of the names every
directory has besides. -/
structure EntryName (t : Text) : Prop where
  ne_nil : t ≠ []
  ne_dot : t ≠ ['.']
  ne_dotdot : t ≠ ['.', '.']
  noSeparator : ∀ c ∈ t, isSeparator c = false

instance (t : Text) : Decidable (EntryName t) :=
  decidable_of_iff (t ≠ [] ∧ t ≠ ['.'] ∧ t ≠ ['.', '.'] ∧ t.any isSeparator = false) <| by
    simp only [List.any_eq_false, Bool.not_eq_true]
    exact ⟨fun h => ⟨h.1, h.2.1, h.2.2.1, h.2.2.2⟩, fun h => ⟨h.1, h.2, h.3, h.4⟩⟩

namespace EntryName

variable {t x : Text}

theorem pathParts_eq (h : EntryName t) : pathParts t = [t] := by
  rw [pathParts, List.splitOnP_eq_singleton h.noSeparator]
  apply List.filter_cons_of_pos
  rw [beq_eq_false_iff_ne.2 h.ne_dot, List.isEmpty_eq_false_iff.2 h.ne_nil]
  rfl

theorem toStep_eq (h : EntryName t) : toStep t = .name t := if_neg h.ne_dotdot

/-- The decoding of a name with a beginning put before it is a name again. -/
theorem decode (h : EntryName t) (hx : ∀ c ∈ x, isSeparator c = false) :
    EntryName (replaceSpaces (x ++ t)) where
  ne_nil hnil := h.ne_nil (List.append_eq_nil_iff.1 (replaceSpaces_eq_nil hnil)).2
  ne_dot hdot := by
    obtain ⟨t₁, hsplit, h₁⟩ := replaceSpaces_eq_cons hdot (by decide)
    rw [replaceSpaces_eq_nil h₁] at hsplit
    rcases List.append_eq_singleton_iff.1 hsplit with ⟨-, ht⟩ | ⟨-, ht⟩
    · exact h.ne_dot ht
    · exact h.ne_nil ht
  ne_dotdot hdots := by
    obtain ⟨t₁, hsplit, h₁⟩ := replaceSpaces_eq_cons hdots (by decide)
    obtain ⟨t₂, rfl, h₂⟩ := replaceSpaces_eq_cons h₁ (by decide)
    rw [replaceSpaces_eq_nil h₂] at hsplit
    -- two dots are the whole name, its last dot, or no part of it
    rcases List.append_eq_cons_iff.1 hsplit with ⟨-, ht⟩ | ⟨x₁, -, hrest⟩
    · exact h.ne_dotdot ht
    · rcases List.append_eq_singleton_iff.1 hrest.symm with ⟨-, ht⟩ | ⟨-, ht⟩
      · exact h.ne_dot ht
      · exact h.ne_nil ht
  noSeparator c hc := by
    rcases mem_replaceSpaces hc with hmem | rfl
    · rcases List.mem_append.1 hmem with hmem | hmem
      · exact hx c hmem
      · exact h.noSeparator c hmem
    · rfl

end EntryName

/-! ## Request paths -/

/-- Nothing is behind the last separator of a request path. -/
def EndsWithSeparator (path : Text) : Prop := ∀ c ∈ path.getLast?, isSeparator c = true

instance (path : Text) : Decidable (EndsWithSeparator path) :=
  decidable_of_iff (path.getLast?.all isSeparator = true) (Option.all_eq_true _ _)

section RequestPaths

variable {path p x : Text}

/-- A request path up to its last separator, and what is behind it. -/
theorem exists_lastPart (path : Text) :
    ∃ p x, path = p ++ x ∧ EndsWithSeparator p ∧ ∀ c ∈ x, isSeparator c = false := by
  induction path using List.reverseRecOn with
  | nil => exact ⟨[], [], rfl, by decide, fun c hc => absurd hc List.not_mem_nil⟩
  | append_singleton path c ih =>
      cases hc : isSeparator c with
      | true =>
          refine ⟨path ++ [c], [], (List.append_nil _).symm, ?_,
            fun d hd => absurd hd List.not_mem_nil⟩
          intro d hd
          rw [List.getLast?_concat] at hd
          exact Option.some.inj hd ▸ hc
      | false =>
          obtain ⟨p, x, rfl, hp, hx⟩ := ih
          refine ⟨p, x ++ [c], List.append_assoc p x [c], hp, ?_⟩
          intro d hd
          rcases List.mem_append.1 hd with hd | hd
          · exact hx d hd
          · exact List.mem_singleton.1 hd ▸ hc

theorem endsWithSeparator_append (hp : EndsWithSeparator p)
    (hx : ∀ c ∈ x, isSeparator c = false) : EndsWithSeparator (p ++ x) ↔ x = [] := by
  constructor
  · intro h
    by_contra hne
    have hlast := h (x.getLast hne) (by rw [List.getLast?_append_of_ne_nil p hne,
      List.getLast?_eq_some_getLast hne]; rfl)
    rw [hx _ (List.getLast_mem hne)] at hlast
    exact Bool.false_ne_true hlast
  · rintro rfl
    rwa [List.append_nil]

theorem EndsWithSeparator.eq_nil_or (hp : EndsWithSeparator p) :
    p = [] ∨ ∃ q c, p = q ++ [c] ∧ isSeparator c = true := by
  rcases List.eq_nil_or_concat p with rfl | ⟨q, c, rfl⟩
  · exact Or.inl rfl
  · rw [List.concat_eq_append] at hp ⊢
    exact Or.inr ⟨q, c, rfl, hp c List.getLast?_concat⟩

theorem pathParts_append (hp : EndsWithSeparator p) (t : Text) :
    pathParts (p ++ t) = pathParts p ++ pathParts t := by
  rcases hp.eq_nil_or with rfl | ⟨q, c, rfl, hc⟩
  · rfl
  · rw [List.append_assoc, List.singleton_append, pathParts_append_cons q t hc,
      pathParts_append_cons q [] hc, pathParts_nil, List.append_nil]

theorem replaceSpaces_append (hp : EndsWithSeparator p) (t : Text) :
    replaceSpaces (p ++ t) = replaceSpaces p ++ replaceSpaces t := by
  rcases hp.eq_nil_or with rfl | ⟨q, c, rfl, hc⟩
  · rfl
  · have hsep : c ∉ "%20".toList := by
      intro hmem
      have hnone : "%20".toList.any isSeparator = false := by decide
      exact List.any_eq_false.1 hnone c hmem hc
    rw [List.append_assoc, List.singleton_append, replaceSpaces_append_cons q t hsep,
      replaceSpaces_append_cons q [] hsep, List.append_assoc]
    rfl

end RequestPaths

/-! ## Links -/

/-- What the page of a directory puts into the link of an entry. -/
def href (path : Text) (e : Entry) : Text :=
  match e.kind with
  | .file => path ++ e.name
  | .directory => path ++ e.name ++ ['/']
  | .other => []

/-- The request a client sends for a link. -/
def linkRequest (path : Text) (e : Entry) : Text :=
  "GET ".toList ++ encodeSpaces (href path e) ++ " HTTP/1.1".toList

/-- The file that the handler looks at for a link is the entry of the directory. -/
def LeadsBack (path : Text) (e : Entry) : Prop :=
  ∃ path', requestPath (linkRequest path e) = some path' ∧
    resolve (absolutePath path') = resolve (absolutePath path ++ '\\' :: e.name)

section Links

variable {env : Env} {httpRequest path : Text} {entries : List Entry} {e : Entry}

/-- The link of an entry has its reference. -/
theorem entryLink_eq (path : Text) (h : e.kind ≠ .other) :
    ∃ label, entryLink path e =
      "<a href=\"".toList ++ href path e ++ "\">".toList ++ label ++ "</a><br>\n".toList := by
  cases hkind : e.kind with
  | file =>
      refine ⟨e.name, ?_⟩
      rw [entryLink, href, hkind]
      simp only [List.append_assoc]
  | directory =>
      refine ⟨"<b><i>".toList ++ e.name ++ "</i></b>".toList, ?_⟩
      rw [entryLink, href, hkind]
      simp only [List.append_assoc]
      rfl
  | other => exact absurd hkind h

/-- The page has a link for each file and directory of the listing. -/
theorem href_infix_directoryPage (path : Text) (he : e ∈ entries) (hkind : e.kind ≠ .other) :
    "<a href=\"".toList ++ href path e ++ "\">".toList <:+: directoryPage path entries := by
  obtain ⟨label, hline⟩ := entryLink_eq path hkind
  obtain ⟨before, after, rfl⟩ := List.append_of_mem he
  refine ⟨pageStart ++ before.flatMap (entryLink path),
    label ++ "</a><br>\n".toList ++ after.flatMap (entryLink path) ++ pageEnd, ?_⟩
  rw [directoryPage, List.flatMap_append, List.flatMap_cons, hline]
  simp only [List.append_assoc]

theorem space_not_mem_encodeSpaces (t : Text) : ' ' ∉ encodeSpaces t := by
  induction t with
  | nil => exact List.not_mem_nil
  | cons c t ih =>
      rw [encodeSpaces]
      split
      · intro hmem
        simp only [List.mem_cons] at hmem
        rcases hmem with h | h | h | h
        · exact absurd h (by decide)
        · exact absurd h (by decide)
        · exact absurd h (by decide)
        · exact ih h
      · next hc =>
          intro hmem
          rcases List.mem_cons.1 hmem with h | h
          · exact hc h.symm
          · exact ih h

/-- The handler decodes the reference of a link. -/
theorem requestPath_linkRequest (path : Text) (e : Entry) :
    requestPath (linkRequest path e) = some (replaceSpaces (href path e)) := by
  have hfields : (linkRequest path e).splitOn ' ' =
      ["GET".toList, encodeSpaces (href path e)] ++ ["HTTP/1.1".toList] := by
    have hline : linkRequest path e =
        "GET".toList ++ ' ' :: (encodeSpaces (href path e) ++ ' ' :: "HTTP/1.1".toList) := by
      exact List.append_assoc "GET ".toList (encodeSpaces (href path e)) " HTTP/1.1".toList
    rw [hline, List.splitOn_append_cons_self_of_not_mem (by decide),
      List.splitOn_append_cons_self_of_not_mem (space_not_mem_encodeSpaces _),
      List.splitOn_eq_singleton (by decide)]
    rfl
  have hsplit : javaSplit ' ' (linkRequest path e) =
      ["GET".toList, encodeSpaces (href path e), "HTTP/1.1".toList] := by
    rw [javaSplit, hfields]
    exact List.rdropWhile_concat_neg List.isEmpty ["GET".toList, encodeSpaces (href path e)]
      "HTTP/1.1".toList (by decide)
  rw [requestPath, hsplit]
  exact congrArg some (replaceSpaces_encodeSpaces _)

/-- The reference of an entry is decoded up to the last separator of the request path,
and what is behind it becomes the beginning of a name. -/
theorem pathParts_href {p x : Text} (hp : EndsWithSeparator p)
    (hx : ∀ c ∈ x, isSeparator c = false) (hdecoded : replaceSpaces p = p)
    (hname : EntryName e.name) (hkind : e.kind ≠ .other) :
    pathParts (replaceSpaces (href (p ++ x) e)) =
      pathParts p ++ [replaceSpaces (x ++ e.name)] := by
  have hparts : pathParts (replaceSpaces (p ++ x ++ e.name)) =
      pathParts p ++ [replaceSpaces (x ++ e.name)] := by
    rw [List.append_assoc, replaceSpaces_append hp, hdecoded, pathParts_append hp,
      (hname.decode hx).pathParts_eq]
  cases hk : e.kind with
  | file =>
      rw [href, hk]
      exact hparts
  | directory =>
      rw [href, hk]
      show pathParts (replaceSpaces (p ++ x ++ e.name ++ '/' :: [])) = _
      rw [replaceSpaces_append_cons _ _ (by decide), pathParts_append_cons _ _ (by decide), hparts]
      exact List.append_nil _
  | other => exact absurd hk hkind

/-- A last part of the request path that no separator follows is not entered by a link. -/
theorem glued_ne (dir : List Text) {x t : Text} (hne : x ≠ [])
    (hx : ∀ c ∈ x, isSeparator c = false) :
    dir ++ [replaceSpaces (x ++ t)] ≠ walk dir (pathSteps x) ++ [t] := by
  intro heq
  obtain ⟨hdir, hname⟩ := List.append_inj' heq rfl
  have hlast : replaceSpaces (x ++ t) = t := (List.cons.inj hname).1
  -- the decoding keeps the dots, so the last part has none of them
  have hdots : x.count '.' = 0 := by
    have hcount := congrArg (List.count '.') hlast
    rw [count_dot_replaceSpaces, List.count_append] at hcount
    omega
  have hnodot : '.' ∉ x := List.count_eq_zero.1 hdots
  have hentry : EntryName x := by
    refine ⟨hne, ?_, ?_, hx⟩
    · rintro rfl
      exact hnodot (by decide)
    · rintro rfl
      exact hnodot (by decide)
  -- it is a name, which the path enters
  have hlen := congrArg List.length hdir
  rw [pathSteps, hentry.pathParts_eq, List.map_singleton, hentry.toStep_eq, walk_name,
    List.length_append, List.length_singleton] at hlen
  omega

/-- A link in the page of a directory leads back to its entry exactly when the request path
ends with a separator and the name of the entry holds no `%20`. -/
theorem leadsBack_iff (hget : requestTarget env httpRequest = .ok (path, .directory entries))
    (hnames : ∀ e ∈ entries, EntryName e.name) (he : e ∈ entries) (hkind : e.kind ≠ .other) :
    LeadsBack path e ↔ EndsWithSeparator path ∧ ¬"%20".toList <:+: e.name := by
  have hname : EntryName e.name := hnames e he
  have hpath : replaceSpaces path = path := by
    obtain ⟨field, -, rfl⟩ := Option.map_eq_some_iff.1 (of_requestTarget hget).1
    exact replaceSpaces_replaceSpaces field
  -- the path up to its last separator, and what the browser cuts off
  obtain ⟨p, x, rfl, hp, hx⟩ := exists_lastPart path
  have hdecoded : replaceSpaces p = p := by
    rw [replaceSpaces_eq_self_iff] at hpath ⊢
    exact fun hinside => hpath (hinside.trans (List.prefix_append p x).isInfix)
  -- the file that the link asks for, and the entry itself
  have hlink : resolve (absolutePath (replaceSpaces (href (p ++ x) e))) =
      serverDir.drive :: (walk serverDir.dirs (pathSteps p) ++ [replaceSpaces (x ++ e.name)]) := by
    rw [serverDir.resolve_eq (pathParts_absolutePath _), pathParts_href hp hx hdecoded hname hkind,
      List.map_append, walk_append, List.map_singleton, (hname.decode hx).toStep_eq]
    rfl
  have hentry : resolve (absolutePath (p ++ x) ++ '\\' :: e.name) =
      serverDir.drive ::
        (walk (walk serverDir.dirs (pathSteps p)) (pathSteps x) ++ [e.name]) := by
    have hparts : pathParts (absolutePath (p ++ x) ++ '\\' :: e.name) =
        pathParts serverDir.path ++ (pathParts p ++ pathParts x ++ [e.name]) := by
      rw [pathParts_append_cons _ _ (by decide), pathParts_absolutePath, pathParts_append hp,
        hname.pathParts_eq, List.append_assoc]
      rfl
    rw [serverDir.resolve_eq hparts, List.map_append, List.map_append, walk_append, walk_append,
      List.map_singleton, hname.toStep_eq]
    rfl
  rw [LeadsBack, endsWithSeparator_append hp hx, ← replaceSpaces_eq_self_iff]
  simp only [requestPath_linkRequest, Option.some.injEq, exists_eq_left', hlink, hentry,
    List.cons_inj_right]
  constructor
  · intro heq
    by_cases hne : x = []
    · subst hne
      exact ⟨rfl, (List.cons.inj (List.append_cancel_left heq)).1⟩
    · exact absurd heq (glued_ne _ hne hx)
  · rintro ⟨rfl, hsame⟩
    rw [List.nil_append, hsame]
    rfl

end Links

/-- The directory `root` with some entries, and nothing else. -/
def rootEnv (entries : List Entry) : Env :=
  ⟨fun t => if t = absolutePath "/root/".toList then some (.directory (some entries)) else none,
    newYear, true⟩

theorem leadsBack_notes :
    LeadsBack "/root/".toList ⟨"my notes.txt".toList, .file⟩ := by
  have hget : requestTarget (rootEnv [⟨"my notes.txt".toList, .file⟩])
      "GET /root/ HTTP/1.1".toList =
        .ok ("/root/".toList, .directory [⟨"my notes.txt".toList, .file⟩]) := by
    decide +kernel
  refine (leadsBack_iff hget ?_ List.mem_cons_self (by decide)).2 (by decide +kernel)
  intro e he
  rw [List.mem_singleton.1 he]
  decide +kernel

/-- The links of `/root` lead beside the directory, and a name with `%20` is never found. -/
theorem leadsBack_fails :
    ¬∀ (env : Env) (httpRequest path : Text) (entries : List Entry) (e : Entry),
      requestTarget env httpRequest = .ok (path, .directory entries) →
      (∀ e ∈ entries, EntryName e.name) → e ∈ entries → e.kind ≠ .other →
      LeadsBack path e := by
  intro h
  obtain ⟨path', hpath', hsame⟩ := h (rootEnv [⟨"a".toList, .file⟩])
    "GET /root HTTP/1.1".toList "/root".toList [⟨"a".toList, .file⟩] ⟨"a".toList, .file⟩
    (by decide +kernel)
    (by
      intro e he
      rw [List.mem_singleton.1 he]
      decide +kernel)
    List.mem_cons_self (by decide)
  -- the reference is `/roota`
  have hfound : requestPath (linkRequest "/root".toList ⟨"a".toList, .file⟩) =
      some "/roota".toList := by decide +kernel
  obtain rfl := Option.some.inj (hpath'.symm.trans hfound)
  exact absurd hsame (by decide +kernel)

end ComputerNetworking.FileServer
