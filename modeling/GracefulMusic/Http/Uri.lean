import GracefulMusic.Http.Response

/-! URIs of streams (`http.c`).

The parts of a URI are looked for by their delimiters: the path from the first slash on, the
user in front of an `@`, the port behind a colon. A query is looked for nowhere. It stays with
the path, and without a path with the host or the port. -/
namespace GracefulMusic.Http

structure HttpUri where
  uri : Text
  user : Option Text
  pass : Option Text
  host : Text
  path : Text
  port : Nat
  deriving DecidableEq

/-- The fields, or -1. -/
inductive Parsed where
  | fields (u : HttpUri)
  | refused
  deriving DecidableEq

/-! ### The parser -/

/-- `[user[:pass]@]`: `host_start`, the user and the password. -/
def userInfo (str : Text) (slash : Option Text) : Text × Option Text × Option Text :=
  match strchr str (ch '@') with
  | some atSign =>
    -- `at < slash`
    if slash.all fun slash => slash.length < atSign.length then
      match strchr str (ch ':') with
      | some colon =>
        -- `colon > at`
        if colon.length < atSign.length then (atSign.tail, some (upTo str atSign), none)
        else (atSign.tail, some (upTo str colon), some (upTo colon.tail atSign))
      | none => (atSign.tail, some (upTo str atSign), none)
    else (str, none, none)
  | none => (str, none, none)

/-- `host[:port]`: -1, or the host and the port; undefined where the port is beyond an `int`. -/
def hostPort (hostStart : Text) (slash : Option Text) : Option (Option (Text × Nat)) :=
  let onlyHost := some (some (slash.elim hostStart (upTo hostStart), 80))
  match strchr hostStart (ch ':') with
  | some colon =>
    if slash.all fun slash => slash.length < colon.length then
      let start := colon.tail
      (readNumber start 0).map fun (port, rest) =>
        if rest.length = start.length ∨ rest.head?.any (· ≠ ch '/') then none
        else some (upTo hostStart colon, port)
    else onlyHost
  | none => onlyHost

/-- `none` is an overflow of the port. -/
def httpParseUri (uri : Text) : Option Parsed :=
  if !(ascii "http://").isPrefixOf uri then some .refused
  else
    let str := uri.drop 7
    let slash := strchr str (ch '/')
    let path := slash.getD (ascii "/")
    let (hostStart, user, pass) := userInfo str slash
    (hostPort hostStart slash).map fun
      | none => .refused
      | some (host, port) => .fields { uri, user, pass, host, path, port }

/-! ### The documented form -/

/-- `[user[:pass]@]host[:port][/path][?query]`, each part without what would end it. -/
structure UriParts where
  userinfo : Option (Text × Option Text)
  host : Text
  port : Option Text
  path : Option Text
  query : Option Text
  user_free : ∀ u ∈ userinfo, ∀ c ∈ u.1, c ≠ ch ':' ∧ c ≠ ch '@' ∧ c ≠ ch '/'
  pass_free : ∀ u ∈ userinfo, ∀ pass ∈ u.2, ∀ c ∈ pass, c ≠ ch '@' ∧ c ≠ ch '/'
  host_free : ∀ c ∈ host, c ≠ ch ':' ∧ c ≠ ch '@' ∧ c ≠ ch '/' ∧ c ≠ ch '?'
  port_free : ∀ p ∈ port, ∀ c ∈ p, c ≠ ch '@' ∧ c ≠ ch '/' ∧ c ≠ ch '?'
  path_slash : ∀ p ∈ path, p.head? = some (ch '/')
  path_free : ∀ p ∈ path, ch '?' ∉ p

namespace UriParts
variable (parts : UriParts)

def infoText : Text :=
  match parts.userinfo with
  | none => []
  | some (user, none) => user ++ [ch '@']
  | some (user, some pass) => user ++ ch ':' :: pass ++ [ch '@']

def portText : Text := parts.port.elim [] (ch ':' :: ·)

def queryText : Text := parts.query.elim [] (ch '?' :: ·)

def text : Text :=
  ascii "http://" ++ (parts.infoText ++ parts.host ++ parts.portText ++ parts.path.getD [] ++
    parts.queryText)

/-- Fields for the parts: `path` is the path with the query. -/
def fields (port : Nat) : HttpUri where
  uri := parts.text
  user := parts.userinfo.map Prod.fst
  pass := parts.userinfo.bind Prod.snd
  host := parts.host
  path := parts.path.getD (ascii "/") ++ parts.queryText
  port

end UriParts

/-- A string of digits that is not empty. -/
def IsPort (p : Text) : Prop := p ≠ [] ∧ ∀ c ∈ p, isDigit c = true

instance (p : Text) : Decidable (IsPort p) := inferInstanceAs (Decidable (_ ∧ _))

/-- What parsing the parts should give: the parts, or -1 for what is no port. -/
def UriParts.expected (parts : UriParts) : Parsed :=
  match parts.port with
  | none => .fields (parts.fields 80)
  | some p => if IsPort p then .fields (parts.fields (digitsValue p)) else .refused

/-! ### Where it is what should be -/

/-- The digits in front are an `int`. -/
def PortFits (p : Text) : Prop := (digitsValue (p.takeWhile isDigit) : Int) ≤ intMax

instance (p : Text) : Decidable (PortFits p) := inferInstanceAs (Decidable (_ ≤ _))

/-- What behind a host is read as a port and refused. -/
def RefusedPort (s : Text) : Prop :=
  ∃ host p, s = host ++ ch ':' :: p ∧ ch ':' ∉ host ∧ ¬ IsPort p ∧ PortFits p

namespace UriParts
variable (parts : UriParts)

/-- The port is not too long for an `int`, and a query has a path. Without one the parts are not
read back, but what is no port may still be refused: as itself, or as what follows an `@` in the
query, which is taken for the end of the user. -/
def ReadsBack : Prop :=
  match parts.path, parts.query with
  | none, some query =>
    let query := query.takeWhile (· ≠ ch '/')
    (∃ p ∈ parts.port, ¬ IsPort p) ∧
      if parts.userinfo = none ∧ ch '@' ∈ query then
        RefusedPort (query.dropWhile (· ≠ ch '@')).tail
      else ∀ p ∈ parts.port, PortFits p
  | _, _ => ∀ p ∈ parts.port, PortFits p

end UriParts

/-! ### Up to the slash -/

/-- What `slash` points at where the rest of a string is `tail`. -/
def slashOf (tail : Text) : Option Text := if tail = [] then none else some tail

/-- Nothing or a path with what follows it. -/
def IsTail (tail : Text) : Prop := ∀ c ∈ tail.head?, c = ch '/'

variable {auth tail hostStart host p user pass : Text}

theorem strchr_slash (hauth : ch '/' ∉ auth) (htail : IsTail tail) :
    strchr (auth ++ tail) (ch '/') = slashOf tail := by
  rw [strchr_append hauth]
  cases tail with
  | nil => rfl
  | cons c tail =>
    obtain rfl := htail c rfl
    exact strchr_split (s := []) List.not_mem_nil tail

theorem slashOf_all (tail s : Text) :
    (slashOf tail).all (fun slash => slash.length < s.length) = true ↔
      tail = [] ∨ tail.length < s.length := by
  rw [slashOf]
  split <;> simp_all

theorem slashOf_elim (host tail : Text) : (slashOf tail).elim (host ++ tail) (upTo (host ++ tail)) =
    host := by
  rw [slashOf]
  split <;> simp_all

/-- A character that is first found in the rest is not in front of the slash. -/
theorem slashOf_not_all {c : UInt8} {s : Text} (h : strchr tail c = some s) :
    ¬ (slashOf tail).all (fun slash => slash.length < s.length) = true := by
  have hle := (strchr_suffix h).length_le
  have hne : tail ≠ [] := by
    rintro rfl
    cases h
  rw [slashOf_all]
  rintro (hnil | hlt)
  · exact hne hnil
  · omega

/-! ### The user -/

theorem userInfo_none (h : ch '@' ∉ auth) :
    userInfo (auth ++ tail) (slashOf tail) = (auth ++ tail, none, none) := by
  rw [userInfo, strchr_append h]
  cases hat : strchr tail (ch '@') with
  | none => rfl
  | some atSign => exact if_neg (slashOf_not_all hat)

theorem userInfo_user (hat : ch '@' ∉ user) (hcolon : ch ':' ∉ user) (rest : Text) :
    userInfo (user ++ ch '@' :: rest ++ tail) (slashOf tail) = (rest ++ tail, some user, none) := by
  have hslash : (slashOf tail).all (fun slash =>
      slash.length < (ch '@' :: (rest ++ tail)).length) = true := by
    rw [slashOf_all]
    simp only [List.length_cons, List.length_append]
    exact .inr (by omega)
  have hstr : user ++ ch '@' :: rest ++ tail = user ++ ch '@' :: (rest ++ tail) := by simp
  rw [hstr, userInfo, strchr_split hat]
  simp only [hslash, if_true, strchr_append hcolon, upTo_append, List.tail_cons]
  cases hfound : strchr (ch '@' :: (rest ++ tail)) (ch ':') with
  | none => rfl
  | some colon =>
    have hle := (strchr_suffix (s := rest ++ tail) (c := ch ':') (p := colon) (by
      rw [← hfound]
      exact (strchr_append (s := [ch '@']) (by decide) _).symm)).length_le
    exact if_pos (by simpa [Nat.lt_succ_iff] using hle)

theorem userInfo_pass (hat : ch '@' ∉ user) (hcolon : ch ':' ∉ user) (hpass : ch '@' ∉ pass)
    (rest : Text) :
    userInfo (user ++ ch ':' :: pass ++ ch '@' :: rest ++ tail) (slashOf tail) =
      (rest ++ tail, some user, some pass) := by
  have hslash : (slashOf tail).all (fun slash =>
      slash.length < (ch '@' :: (rest ++ tail)).length) = true := by
    rw [slashOf_all]
    simp only [List.length_cons, List.length_append]
    exact .inr (by omega)
  have hinfo : ch '@' ∉ user ++ ch ':' :: pass := by
    simp only [List.mem_append, List.mem_cons, not_or]
    exact ⟨hat, by decide, hpass⟩
  have hstr : user ++ ch ':' :: pass ++ ch '@' :: rest ++ tail =
      (user ++ ch ':' :: pass) ++ ch '@' :: (rest ++ tail) := by simp
  have hfound : strchr (user ++ ch ':' :: pass ++ ch '@' :: (rest ++ tail)) (ch ':') =
      some (ch ':' :: (pass ++ ch '@' :: (rest ++ tail))) := by
    rw [List.append_assoc, List.cons_append, strchr_split hcolon]
  rw [hstr, userInfo, strchr_split hinfo]
  simp only [hslash, if_true, hfound, List.tail_cons, upTo_append]
  rw [if_neg (by simp; omega)]
  simp only [List.append_assoc, List.cons_append, upTo_append]

variable (tail) in
/-- Whatever is in front of the first `@` is a user. -/
theorem userInfo_some {front : Text} (hat : ch '@' ∉ front) (rest : Text) : ∃ user pass,
    userInfo (front ++ ch '@' :: rest ++ tail) (slashOf tail) = (rest ++ tail, some user, pass) := by
  by_cases hcolon : ch ':' ∈ front
  · obtain ⟨user, pass, rfl, huser⟩ := List.eq_append_cons_of_mem hcolon
    simp only [List.mem_append, List.mem_cons, not_or] at hat
    exact ⟨user, some pass, userInfo_pass hat.1 huser hat.2.2 rest⟩
  · exact ⟨front, none, userInfo_user hat hcolon rest⟩

/-! ### The host and the port -/

/-- What the port gives: undefined, -1 or a number. -/
def portNumber (p : Text) : Option (Option Nat) :=
  if PortFits p then some (if IsPort p then some (digitsValue p) else none) else none

theorem hostPort_host (h : ch ':' ∉ host) :
    hostPort (host ++ tail) (slashOf tail) = some (some (host, 80)) := by
  rw [hostPort, strchr_append h, slashOf_elim]
  cases hcolon : strchr tail (ch ':') with
  | none => rfl
  | some colon => exact if_neg (slashOf_not_all hcolon)

theorem IsTail.not_digit (htail : IsTail tail) : ∀ c ∈ tail.head?, isDigit c = false := by
  intro c hc
  obtain rfl := htail c hc
  decide

/-- The loop stops at the end or at the slash exactly where all is digits. -/
theorem behindDigits_iff (htail : IsTail tail) (hp : ch '/' ∉ p) :
    (p.dropWhile isDigit ++ tail).length = (p ++ tail).length ∨
        (p.dropWhile isDigit ++ tail).head?.any (· ≠ ch '/') = true ↔ ¬ IsPort p := by
  rw [IsPort, List.length_append, List.length_append, Nat.add_right_cancel_iff]
  by_cases hall : ∀ c ∈ p, isDigit c = true
  · have hdrop : p.dropWhile isDigit = [] := List.dropWhile_eq_nil_iff.mpr hall
    have hhead : tail.head?.any (· ≠ ch '/') = false := by
      cases tail with
      | nil => rfl
      | cons c tail =>
        obtain rfl := htail c rfl
        rfl
    have hempty : ([] : Text).length = p.length ↔ p = [] := by
      cases p <;> simp
    rw [hdrop, List.nil_append, hhead, hempty]
    constructor
    · rintro (hnil | hno)
      · exact fun h => h.1 hnil
      · cases hno
    · exact fun h => .inl (by_contra fun hne => h ⟨hne, hall⟩)
  · have hne : p.dropWhile isDigit ≠ [] := fun h => hall (List.dropWhile_eq_nil_iff.mp h)
    obtain ⟨c, rest, hrest⟩ := List.exists_cons_of_ne_nil hne
    have hc : c ≠ ch '/' := by
      rintro rfl
      exact hp ((List.dropWhile_suffix isDigit).mem (hrest ▸ List.mem_cons_self))
    exact iff_of_true (.inr (by simp [hrest, hc])) fun h => hall h.2

theorem hostPort_port (hhost : ch ':' ∉ host) (hp : ch '/' ∉ p) (htail : IsTail tail) :
    hostPort (host ++ ch ':' :: p ++ tail) (slashOf tail) =
      (portNumber p).map fun port => port.map fun port => (host, port) := by
  have hslash : (slashOf tail).all (fun slash =>
      slash.length < (ch ':' :: (p ++ tail)).length) = true := by
    rw [slashOf_all]
    simp only [List.length_cons, List.length_append]
    exact .inr (by omega)
  have hstr : host ++ ch ':' :: p ++ tail = host ++ ch ':' :: (p ++ tail) := by simp
  obtain ⟨htake, hdrop⟩ := digits_append htail.not_digit p
  rw [hstr, hostPort, strchr_split hhost, portNumber]
  simp only [hslash, if_true, List.tail_cons, readNumber_eq, htake, hdrop, upTo_append]
  by_cases hfits : PortFits p
  · rw [if_pos hfits, if_pos (show _ ≤ intMax from hfits), Option.map_some, Option.map_some,
      Option.some.injEq]
    by_cases hport : IsPort p
    · have hall : p.takeWhile isDigit = p := List.takeWhile_eq_self_iff.mpr hport.2
      rw [if_pos hport, if_neg (fun h => (behindDigits_iff htail hp).mp h hport), hall]
      rfl
    · rw [if_neg hport, if_pos ((behindDigits_iff htail hp).mpr hport)]
      rfl
  · rw [if_neg hfits, if_neg (show ¬ _ ≤ intMax from hfits)]
    rfl

/-- The host that is found goes up to a colon. -/
theorem hostPort_fst {s : Text} {port : Nat} (hs : ch '/' ∉ s) (htail : IsTail tail)
    (h : hostPort (s ++ tail) (slashOf tail) = some (some (host, port))) :
    host = s.takeWhile (· ≠ ch ':') := by
  by_cases hcolon : ch ':' ∈ s
  · obtain ⟨front, p, rfl, hfront⟩ := List.eq_append_cons_of_mem hcolon
    have hp : ch '/' ∉ p := fun hmem => hs (by simp [hmem])
    rw [hostPort_port hfront hp htail, Option.map_eq_some_iff] at h
    obtain ⟨number, -, h⟩ := h
    obtain ⟨port', -, h⟩ := Option.map_eq_some_iff.mp h
    rw [takeWhile_ne_append hfront]
    simpa using (congrArg Prod.fst h).symm
  · rw [hostPort_host hcolon] at h
    cases h
    rw [takeWhile_ne_self hcolon]

/-- What is read as a port and refused, and nothing else is. -/
theorem hostPort_refused_iff {s : Text} (hs : ch '/' ∉ s) (htail : IsTail tail) :
    hostPort (s ++ tail) (slashOf tail) = some none ↔ RefusedPort s := by
  by_cases hcolon : ch ':' ∈ s
  · obtain ⟨front, p, rfl, hfront⟩ := List.eq_append_cons_of_mem hcolon
    have hp : ch '/' ∉ p := fun hmem => hs (by simp [hmem])
    have hsplit : RefusedPort (front ++ ch ':' :: p) ↔ ¬ IsPort p ∧ PortFits p := by
      refine ⟨?_, fun h => ⟨front, p, rfl, hfront, h⟩⟩
      rintro ⟨front', p', heq, hfront', h⟩
      obtain ⟨-, rfl⟩ := split_unique hfront hfront' heq
      exact h
    rw [hostPort_port hfront hp htail, hsplit, portNumber]
    by_cases hfits : PortFits p
    · by_cases hport : IsPort p <;> simp [hfits, hport]
    · simp [hfits]
  · rw [hostPort_host hcolon]
    refine iff_of_false nofun ?_
    rintro ⟨front, p, rfl, -⟩
    exact hcolon (by simp)

/-! ### The parts -/

/-- A text up to its tail, of which each step has a result. -/
theorem httpParseUri_eq (hauth : ch '/' ∉ auth) (htail : IsTail tail) {user pass : Option Text}
    (hinfo : userInfo (auth ++ tail) (slashOf tail) = (hostStart ++ tail, user, pass)) :
    httpParseUri (ascii "http://" ++ (auth ++ tail)) =
      (hostPort (hostStart ++ tail) (slashOf tail)).map fun
        | none => .refused
        | some (host, port) => .fields
          { uri := ascii "http://" ++ (auth ++ tail), user, pass, host
            path := (slashOf tail).getD (ascii "/"), port } := by
  have hdrop : (ascii "http://" ++ (auth ++ tail)).drop 7 = auth ++ tail := rfl
  rw [httpParseUri, if_neg (by simp), hdrop]
  dsimp only
  rw [strchr_slash hauth htail, hinfo]

namespace UriParts
variable {parts : UriParts}

/-- The user is none, or alone, or with a password. -/
theorem userinfo_cases (parts : UriParts) :
    (parts.userinfo = none ∧ parts.infoText = []) ∨
    (∃ user, parts.userinfo = some (user, none) ∧ parts.infoText = user ++ [ch '@'] ∧
      ch ':' ∉ user ∧ ch '@' ∉ user ∧ ch '/' ∉ user) ∨
    ∃ user pass, parts.userinfo = some (user, some pass) ∧
      parts.infoText = user ++ ch ':' :: pass ++ [ch '@'] ∧
      (ch ':' ∉ user ∧ ch '@' ∉ user ∧ ch '/' ∉ user) ∧ ch '@' ∉ pass ∧ ch '/' ∉ pass := by
  have huser := parts.user_free
  have hpass := parts.pass_free
  rw [infoText]
  rcases hinfo : parts.userinfo with _ | ⟨user, _ | pass⟩
  · exact .inl ⟨rfl, rfl⟩
  · exact .inr (.inl ⟨user, rfl, rfl, fun h => (huser _ hinfo _ h).1 rfl,
      fun h => (huser _ hinfo _ h).2.1 rfl, fun h => (huser _ hinfo _ h).2.2 rfl⟩)
  · exact .inr (.inr ⟨user, pass, rfl, rfl, ⟨fun h => (huser _ hinfo _ h).1 rfl,
      fun h => (huser _ hinfo _ h).2.1 rfl, fun h => (huser _ hinfo _ h).2.2 rfl⟩,
      fun h => (hpass _ hinfo _ rfl _ h).1 rfl, fun h => (hpass _ hinfo _ rfl _ h).2 rfl⟩)

theorem infoText_free (parts : UriParts) : ch '/' ∉ parts.infoText := by
  have hcolon : ch '/' ≠ ch ':' := by decide
  have hat : ch '/' ≠ ch '@' := by decide
  rcases parts.userinfo_cases with ⟨-, htext⟩ | ⟨user, -, htext, -, -, hslash⟩ |
    ⟨user, pass, -, htext, ⟨-, -, hslash⟩, -, hslash'⟩
  · simp [htext]
  · simp [htext, hslash, hat]
  · simp [htext, hslash, hslash', hat, hcolon]

theorem host_free' (parts : UriParts) : ch ':' ∉ parts.host ∧ ch '@' ∉ parts.host ∧
    ch '/' ∉ parts.host ∧ ch '?' ∉ parts.host :=
  ⟨fun h => (parts.host_free _ h).1 rfl, fun h => (parts.host_free _ h).2.1 rfl,
    fun h => (parts.host_free _ h).2.2.1 rfl, fun h => (parts.host_free _ h).2.2.2 rfl⟩

theorem portText_free (parts : UriParts) : ch '@' ∉ parts.portText ∧ ch '/' ∉ parts.portText := by
  have hat : ch '@' ≠ ch ':' := by decide
  have hslash : ch '/' ≠ ch ':' := by decide
  rw [portText]
  cases hport : parts.port with
  | none => simp
  | some p =>
    have hfree := parts.port_free p hport
    simp only [Option.elim_some, List.mem_cons, not_or]
    exact ⟨⟨hat, fun h => (hfree _ h).1 rfl⟩, hslash, fun h => (hfree _ h).2.1 rfl⟩

variable (tail) in
/-- The user and the password are found, unless there is none and an `@` further right. -/
theorem userInfo_parts {rest : Text} (hrest : parts.userinfo = none → ch '@' ∉ rest) :
    userInfo (parts.infoText ++ rest ++ tail) (slashOf tail) =
      (rest ++ tail, parts.userinfo.map Prod.fst, parts.userinfo.bind Prod.snd) := by
  rcases parts.userinfo_cases with ⟨hinfo, htext⟩ | ⟨user, hinfo, htext, hcolon, hat, -⟩ |
    ⟨user, pass, hinfo, htext, ⟨hcolon, hat, -⟩, hpass, -⟩
  · rw [htext, hinfo, List.nil_append]
    exact userInfo_none (hrest hinfo)
  · rw [htext, hinfo, List.append_assoc user, List.singleton_append]
    exact userInfo_user hat hcolon rest
  · rw [htext, hinfo, List.append_assoc _ [ch '@'], List.singleton_append]
    exact userInfo_pass hat hcolon hpass rest

/-! ### With a path or without a query -/

theorem isTail_path (hpath : parts.path ≠ none ∨ parts.query = none) :
    IsTail (parts.path.getD [] ++ parts.queryText) := by
  intro c hc
  rcases hp : parts.path with _ | p
  · have hquery := hpath.resolve_left fun h => h hp
    rw [hp, queryText, hquery] at hc
    cases hc
  · have hslash := parts.path_slash p hp
    rw [hp, Option.getD_some, List.head?_append, hslash] at hc
    exact (Option.some.inj hc).symm

theorem path_getD (hpath : parts.path ≠ none ∨ parts.query = none) :
    (slashOf (parts.path.getD [] ++ parts.queryText)).getD (ascii "/") =
      parts.path.getD (ascii "/") ++ parts.queryText := by
  rcases hp : parts.path with _ | p
  · have hquery := hpath.resolve_left fun h => h hp
    rw [queryText, hquery]
    rfl
  · have hne : p ≠ [] := by
      rintro rfl
      cases parts.path_slash [] hp
    simp [slashOf, hne]

theorem parse_whole (hpath : parts.path ≠ none ∨ parts.query = none) : httpParseUri parts.text =
    match parts.port with
    | none => some (.fields (parts.fields 80))
    | some p => (portNumber p).map fun
      | none => .refused
      | some port => .fields (parts.fields port) := by
  obtain ⟨hcolon, hat, hslash, -⟩ := parts.host_free'
  obtain ⟨hat', hslash'⟩ := parts.portText_free
  have htail := isTail_path hpath
  have hauth : ch '/' ∉ parts.infoText ++ (parts.host ++ parts.portText) := by
    simp [parts.infoText_free, hslash, hslash']
  have hrest : parts.userinfo = none → ch '@' ∉ parts.host ++ parts.portText := fun _ => by
    simp [hat, hat']
  have hinfo := userInfo_parts (parts.path.getD [] ++ parts.queryText) hrest
  have htext : parts.text = ascii "http://" ++ (parts.infoText ++ (parts.host ++ parts.portText) ++
      (parts.path.getD [] ++ parts.queryText)) := by simp [text]
  have hparse := httpParseUri_eq hauth htail hinfo
  rw [← htext, path_getD hpath] at hparse
  rw [hparse]
  cases hport : parts.port with
  | none =>
    have hnone : parts.portText = [] := by rw [portText, hport]; rfl
    rw [hnone, List.append_nil, hostPort_host hcolon]
    rfl
  | some p =>
    have hsome : parts.portText = ch ':' :: p := by rw [portText, hport]; rfl
    rw [hsome] at hslash' ⊢
    rw [hostPort_port hcolon (fun h => hslash' (List.mem_cons_of_mem _ h)) htail, Option.map_map]
    congr 1
    funext port
    cases port <;> rfl

/-- Then the port decides. -/
theorem reads_whole (hpath : parts.path ≠ none ∨ parts.query = none) :
    httpParseUri parts.text = some parts.expected ↔ ∀ p ∈ parts.port, PortFits p := by
  rw [parse_whole hpath, expected]
  cases parts.port with
  | none => simp
  | some p =>
    by_cases hfits : PortFits p
    · by_cases hport : IsPort p <;> simp [portNumber, hfits, hport]
    · simp [portNumber, hfits]

/-! ### With a query and no path -/

variable {query : Text}

/-- The text of the query up to its first slash, and what follows. -/
theorem text_query (hpath : parts.path = none) (hquery : parts.query = some query) : parts.text =
    ascii "http://" ++ (parts.infoText ++ (parts.host ++ parts.portText ++
      ch '?' :: query.takeWhile (· ≠ ch '/')) ++ query.dropWhile (· ≠ ch '/')) := by
  rw [text, queryText, hpath, hquery]
  simp

theorem slash_notMem_takeWhile (query : Text) : ch '/' ∉ query.takeWhile (· ≠ ch '/') := fun h => by
  simpa using List.mem_takeWhile_imp h

theorem isTail_dropWhile (query : Text) : IsTail (query.dropWhile (· ≠ ch '/')) := by
  intro c hc
  have := List.head?_dropWhile_not (· ≠ ch '/') query
  rw [hc] at this
  simpa using this

/-- With no port the query comes to the host. -/
theorem hostPort_query_host {more tail host : Text} {port : Nat} (htail : IsTail tail)
    (hmore : ch '/' ∉ parts.host ++ ch '?' :: more)
    (hresult : hostPort (parts.host ++ ch '?' :: more ++ tail) (slashOf tail) =
      some (some (host, port))) : host ≠ parts.host := by
  rintro rfl
  obtain ⟨hcolon, -⟩ := parts.host_free'
  have hhost := hostPort_fst hmore htail hresult
  have hmark : (ch '?' :: more).takeWhile (· ≠ ch ':') = ch '?' :: more.takeWhile (· ≠ ch ':') :=
    List.takeWhile_cons_of_pos (by decide)
  rw [takeWhile_ne_append hcolon, hmark] at hhost
  exact List.cons_ne_nil _ _ (List.append_right_eq_self.mp hhost.symm)

/-- With a port it comes to the port, which is none then. -/
theorem hostPort_query_port {p more tail : Text} (htail : IsTail tail)
    (hmore : ch '/' ∉ p ++ ch '?' :: more) :
    hostPort (parts.host ++ ch ':' :: p ++ ch '?' :: more ++ tail) (slashOf tail) =
      if PortFits p then some none else none := by
  obtain ⟨hcolon, -⟩ := parts.host_free'
  have hfits : PortFits (p ++ ch '?' :: more) ↔ PortFits p := by
    rw [PortFits, (digits_append (t := ch '?' :: more) (by simp; decide) p).1]
    rfl
  have hnot : ¬ IsPort (p ++ ch '?' :: more) := fun h => by
    have := h.2 (ch '?') (by simp)
    exact absurd this (by decide)
  have h := hostPort_port hcolon hmore htail
  rw [portNumber, if_neg hnot] at h
  simp only [hfits] at h
  rw [List.append_assoc parts.host, List.cons_append, h]
  split <;> rfl

/-- So it is read with a port only, which is no number. -/
theorem reads_query (hpath : parts.path = none) (hquery : parts.query = some query)
    (hinfo : parts.userinfo = none → ch '@' ∉ query.takeWhile (· ≠ ch '/')) :
    httpParseUri parts.text = some parts.expected ↔
      (∃ p ∈ parts.port, ¬ IsPort p) ∧ ∀ p ∈ parts.port, PortFits p := by
  obtain ⟨-, hat, hslash, -⟩ := parts.host_free'
  obtain ⟨hat', hslash'⟩ := parts.portText_free
  have hfree := slash_notMem_takeWhile query
  have htail := isTail_dropWhile query
  have htext := text_query hpath hquery
  generalize query.takeWhile (· ≠ ch '/') = more at hinfo hfree htext
  generalize query.dropWhile (· ≠ ch '/') = tail at htail htext
  have hmore : ch '/' ∉ parts.host ++ parts.portText ++ ch '?' :: more := by
    simp [hslash, hslash', hfree]
    decide
  have hrest : parts.userinfo = none → ch '@' ∉ parts.host ++ parts.portText ++ ch '?' :: more :=
    fun hnone => by
      simp [hat, hat', hinfo hnone]
      decide
  have hread := userInfo_parts tail hrest
  have hparse := httpParseUri_eq (by simpa [parts.infoText_free] using hmore) htail hread
  rw [← htext] at hparse
  rw [hparse]
  cases hport : parts.port with
  | none =>
    refine iff_of_false (fun h => ?_) (by simp)
    obtain ⟨result, hresult, h⟩ := Option.map_eq_some_iff.mp h
    rw [expected, hport] at h
    rcases result with _ | ⟨host, port⟩
    · cases h
    · have hnone : parts.portText = [] := by rw [portText, hport]; rfl
      rw [hnone, List.append_nil] at hmore hresult
      exact hostPort_query_host htail hmore hresult
        (congrArg HttpUri.host (Parsed.fields.inj h))
  | some p =>
    have hsome : parts.portText = ch ':' :: p := by rw [portText, hport]; rfl
    have hp : ch '/' ∉ p ++ ch '?' :: more := by
      intro hmem
      exact hmore (by rw [hsome]; simpa [or_assoc] using .inr (.inr (by simpa using hmem)))
    rw [hsome, hostPort_query_port htail hp, expected, hport]
    by_cases hfit : PortFits p
    · by_cases hport : IsPort p <;> simp [hfit, hport]
    · simp [hfit]

theorem expected_refused_iff : parts.expected = .refused ↔ ∃ p ∈ parts.port, ¬ IsPort p := by
  rw [expected]
  cases parts.port with
  | none => simp
  | some p => by_cases hport : IsPort p <;> simp [hport]

theorem expected_user {u : HttpUri} (h : parts.expected = .fields u) :
    u.user = parts.userinfo.map Prod.fst := by
  rw [expected] at h
  split at h
  · cases h
    rfl
  · split at h
    · cases h
      rfl
    · cases h

/-- The query ends the user, who is then not missing. -/
theorem reads_astray (hpath : parts.path = none) (hquery : parts.query = some query)
    (hinfo : parts.userinfo = none) (hat : ch '@' ∈ query.takeWhile (· ≠ ch '/')) :
    httpParseUri parts.text = some parts.expected ↔
      (∃ p ∈ parts.port, ¬ IsPort p) ∧
        RefusedPort ((query.takeWhile (· ≠ ch '/')).dropWhile (· ≠ ch '@')).tail := by
  obtain ⟨a, b, hsplit, ha⟩ := List.eq_append_cons_of_mem hat
  have hbehind : ((query.takeWhile (· ≠ ch '/')).dropWhile (· ≠ ch '@')).tail = b := by
    rw [hsplit, Sequence.dropWhile_split b ha, List.tail_cons]
  obtain ⟨-, hhost, hslash, -⟩ := parts.host_free'
  obtain ⟨hport, hslash'⟩ := parts.portText_free
  have hfree := slash_notMem_takeWhile query
  have htail := isTail_dropWhile query
  have htext := text_query hpath hquery
  have hnone : parts.infoText = [] := by rw [infoText, hinfo]
  rw [hbehind]
  rw [hsplit] at hfree htext
  generalize query.dropWhile (· ≠ ch '/') = tail at htail htext
  have hb : ch '/' ∉ b := fun h => hfree (by simp [h])
  have hfront : ch '@' ∉ parts.host ++ parts.portText ++ ch '?' :: a := by
    simp [hhost, hport, ha]
    decide
  have hauth : ch '/' ∉ parts.host ++ parts.portText ++ ch '?' :: a ++ ch '@' :: b := by
    have ha' : ch '/' ∉ a := fun h => hfree (by simp [h])
    simp [hslash, hslash', ha', hb]
    decide
  obtain ⟨user, pass, hread⟩ := userInfo_some tail hfront b
  have hparse := httpParseUri_eq hauth htail hread
  have hstr : parts.infoText ++ (parts.host ++ parts.portText ++ ch '?' :: (a ++ ch '@' :: b)) ++ tail =
      parts.host ++ parts.portText ++ ch '?' :: a ++ ch '@' :: b ++ tail := by simp [hnone]
  rw [hstr] at htext
  rw [← htext] at hparse
  rw [hparse, ← hostPort_refused_iff hb htail, ← expected_refused_iff]
  rcases hostPort (b ++ tail) (slashOf tail) with _ | _ | ⟨host, port⟩
  · simp
  · simp [eq_comm]
  · refine iff_of_false (fun h => ?_) (by simp)
    have huser := expected_user (Option.some.inj h).symm
    rw [hinfo] at huser
    cases huser

end UriParts

/-- A URI of the documented form is read back, or refused for its port, exactly where its query
has a path and its port fits into an `int`, or a port that is none is refused after all. -/
theorem httpParseUri_iff (parts : UriParts) :
    httpParseUri parts.text = some parts.expected ↔ parts.ReadsBack := by
  rcases hpath : parts.path with _ | path
  · rcases hquery : parts.query with _ | query
    · rw [UriParts.reads_whole (.inr hquery), UriParts.ReadsBack, hpath, hquery]
    · rw [UriParts.ReadsBack, hpath, hquery]
      dsimp only
      by_cases hastray : parts.userinfo = none ∧ ch '@' ∈ query.takeWhile (· ≠ ch '/')
      · rw [if_pos hastray]
        exact UriParts.reads_astray hpath hquery hastray.1 hastray.2
      · rw [if_neg hastray]
        exact UriParts.reads_query hpath hquery fun hnone hat => hastray ⟨hnone, hat⟩
  · rw [UriParts.reads_whole (.inl (by simp [hpath])), UriParts.ReadsBack, hpath]

/-- A query behind a host, which may have a port. -/
def hostQuery (port : Option Text) (hport : ∀ p ∈ port, ∀ c ∈ p, isDigit c = true) : UriParts where
  userinfo := none
  host := ascii "host"
  port
  path := none
  query := some (ascii "q")
  user_free := by simp
  pass_free := by simp
  host_free := by decide +kernel
  port_free p hp c hc := by
    have hdigit := hport p hp c hc
    refine ⟨?_, ?_, ?_⟩ <;> rintro rfl <;> revert hdigit <;> decide
  path_slash := by simp
  path_free := by simp

/-- The query comes to the host, and behind a port it is refused. -/
theorem hostQuery_astray :
    (hostQuery none nofun).text = ascii "http://host?q" ∧
    httpParseUri (ascii "http://host?q") = some (.fields
      ⟨ascii "http://host?q", none, none, ascii "host?q", ascii "/", 80⟩) ∧
    httpParseUri (ascii "http://host?q") ≠ some (hostQuery none nofun).expected ∧
    (hostQuery (some (ascii "80")) (by decide +kernel)).text = ascii "http://host:80?q" ∧
    httpParseUri (ascii "http://host:80?q") = some .refused ∧
    httpParseUri (ascii "http://host:80?q") ≠
      some (hostQuery (some (ascii "80")) (by decide +kernel)).expected := by
  decide +kernel

end GracefulMusic.Http
