import Dvcs.Text.Utf8

/-!
This module contains the extension that hg loads to show commits and diffs in the form that the
readers of this library expect. Mercurial loads extensions as source text.
-/

namespace Dvcs

namespace Mercurial

/-- The lines of the extension. -/
def extensionLines : List String := [
  "\"\"\"Dump commit metadata and git-style diffs in a line-framed format.",
  "",
  "Loaded by repokit into a Mercurial process with",
  "``--config extensions.repokit_dump=<path to this file>``. Runs inside ``hg``,",
  "never inside the host application.",
  "\"\"\"",
  "",
  "from mercurial import mdiff, patch, registrar, scmutil",
  "",
  "cmdtable = \x7b\x7d",
  "command = registrar.command(cmdtable)",
  "testedwith = b\"6.5 6.7 6.8\"",
  "",
  "SENTINEL = b\"#@!_-=&\"",
  "",
  "",
  "def _diffopts():",
  "    return mdiff.diffopts(git=True, nodates=True, context=0, showfunc=False)",
  "",
  "",
  "def _split_user(user):",
  "    start = user.find(b\"<\")",
  "    end = user.rfind(b\">\")",
  "    if start >= 0 and end > start:",
  "        return user[:start].strip(), user[start + 1 : end].strip()",
  "    return user.strip(), b\"\"",
  "",
  "",
  "def _write_record(ui, ctx):",
  "    name, email = _split_user(ctx.user())",
  "    description = ctx.description()",
  "    message = description.split(b\"\\n\") if description else []",
  "    ui.write(SENTINEL + b\"\\n\")",
  "    ui.write(ctx.hex() + b\"\\n\")",
  "    # a root commit reports the null revision as its only parent",
  "    ui.write(b\" \".join(p.hex() for p in ctx.parents()) + b\"\\n\")",
  "    ui.write(name + b\"\\n\")",
  "    ui.write(email + b\"\\n\")",
  "    # mercurial records no separate committer",
  "    ui.write(name + b\"\\n\")",
  "    ui.write(email + b\"\\n\")",
  "    ui.write(b\"%d\\n\" % int(ctx.date()[0]))",
  "    ui.write(b\"%d\\n\" % len(message))",
  "    for line in message:",
  "        ui.write(line + b\"\\n\")",
  "",
  "",
  "def _write_diff(ui, repo, node1, node2):",
  "    for chunk in patch.diff(repo, node1, node2, opts=_diffopts()):",
  "        ui.write(chunk)",
  "",
  "",
  "@command(",
  "    b\"repokit-log\",",
  "    [",
  "        (b\"\", b\"reverse\", False, b\"produce oldest first\"),",
  "        (b\"l\", b\"limit\", 0, b\"keep only the newest NUM commits\", b\"NUM\"),",
  "        (b\"\", b\"no-diffs\", False, b\"omit the diffs against parents\"),",
  "    ],",
  "    b\"[REVSET]\",",
  ")",
  "def repokit_log(ui, repo, revset=b\"all()\", **opts):",
  "    \"\"\"dump commits selected by REVSET, newest first\"\"\"",
  "    revs = scmutil.revrange(repo, [revset])",
  "    revs.sort(reverse=True)",
  "    if opts.get(\"limit\"):",
  "        revs = revs.slice(0, opts[\"limit\"])",
  "    if opts.get(\"reverse\"):",
  "        revs.reverse()",
  "",
  "    for rev in revs:",
  "        ctx = repo[rev]",
  "        _write_record(ui, ctx)",
  "        if opts.get(\"no_diffs\"):",
  "            continue",
  "        for parent in ctx.parents():",
  "            ui.write(SENTINEL + b\"diff \" + parent.hex() + b\"\\n\")",
  "            _write_diff(ui, repo, parent.node(), ctx.node())",
  "",
  "",
  "@command(b\"repokit-diff\", [], b\"FROM [TO]\")",
  "def repokit_diff(ui, repo, source, target=None, **opts):",
  "    \"\"\"git-style diff between FROM and TO (default: the working directory)\"\"\"",
  "    ctx1 = scmutil.revsingle(repo, source)",
  "    node2 = scmutil.revsingle(repo, target).node() if target else None",
  "    _write_diff(ui, repo, ctx1.node(), node2)"]

/-- The content of the file that the extension is loaded from. -/
def extensionSource : Bytes :=
  extensionLines.flatMap fun line => Text.encode (Text.ofString line ++ "\n")

end Mercurial

end Dvcs
