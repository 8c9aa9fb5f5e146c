import DepScope.Text.Chars

/-!
# DepScope.Package.Builtins

The modules that come with a language's runtime and so never with a registry.
-/

namespace DepScope.Package

/-- The core modules of the Node runtime. -/
def nodeModules : List String :=
  ["_http_agent", "_http_client", "_http_common", "_http_incoming", "_http_outgoing",
   "_http_server", "_stream_duplex", "_stream_passthrough", "_stream_readable",
   "_stream_transform", "_stream_wrap", "_stream_writable", "_tls_common", "_tls_wrap",
   "assert", "assert/strict", "async_hooks", "buffer", "child_process", "cluster", "console",
   "constants", "crypto", "dgram", "diagnostics_channel", "dns", "dns/promises", "domain",
   "events", "fs", "fs/promises", "http", "http2", "https", "inspector", "inspector/promises",
   "module", "net", "os", "path", "path/posix", "path/win32", "perf_hooks", "process",
   "punycode", "querystring", "readline", "readline/promises", "repl", "stream",
   "stream/consumers", "stream/promises", "stream/web", "string_decoder", "sys", "timers",
   "timers/promises", "tls", "trace_events", "tty", "url", "util", "util/types", "v8", "vm",
   "wasi", "worker_threads", "zlib"]

/-- The modules of the Python standard library. -/
def pythonModules : List String :=
  ["__future__", "__hello__", "__phello__", "_abc", "_aix_support", "_ast", "_codecs",
   "_collections", "_collections_abc", "_compat_pickle", "_compression", "_functools", "_imp",
   "_io", "_locale", "_markupbase", "_operator", "_osx_support", "_py_abc", "_pydatetime",
   "_pydecimal", "_pyio", "_pylong", "_signal", "_sitebuiltins", "_sre", "_stat", "_string",
   "_strptime", "_symtable", "_sysconfigdata__darwin_darwin", "_thread", "_threading_local",
   "_tokenize", "_tracemalloc", "_typing", "_warnings", "_weakref", "_weakrefset", "abc",
   "aifc", "antigravity", "argparse", "ast", "asyncio", "atexit", "base64", "bdb", "bisect",
   "builtins", "bz2", "cProfile", "calendar", "cgi", "cgitb", "chunk", "cmd", "code", "codecs",
   "codeop", "collections", "colorsys", "compileall", "concurrent", "configparser",
   "contextlib", "contextvars", "copy", "copyreg", "crypt", "csv", "ctypes", "curses",
   "dataclasses", "datetime", "dbm", "decimal", "difflib", "dis", "doctest", "email",
   "encodings", "ensurepip", "enum", "errno", "faulthandler", "filecmp", "fileinput", "fnmatch",
   "fractions", "ftplib", "functools", "gc", "genericpath", "getopt", "getpass", "gettext",
   "glob", "graphlib", "gzip", "hashlib", "heapq", "hmac", "html", "http", "idlelib", "imaplib",
   "imghdr", "importlib", "inspect", "io", "ipaddress", "itertools", "json", "keyword",
   "lib2to3", "linecache", "locale", "logging", "lzma", "mailbox", "mailcap", "marshal",
   "mimetypes", "modulefinder", "multiprocessing", "netrc", "nntplib", "ntpath", "nturl2path",
   "numbers", "opcode", "operator", "optparse", "os", "pathlib", "pdb", "pickle", "pickletools",
   "pipes", "pkgutil", "platform", "plistlib", "poplib", "posix", "posixpath", "pprint",
   "profile", "pstats", "pty", "pwd", "py_compile", "pyclbr", "pydoc", "pydoc_data", "queue",
   "quopri", "random", "re", "reprlib", "rlcompleter", "runpy", "sched", "secrets", "selectors",
   "shelve", "shlex", "shutil", "signal", "site", "smtplib", "sndhdr", "socket", "socketserver",
   "sqlite3", "sre_compile", "sre_constants", "sre_parse", "ssl", "stat", "statistics",
   "string", "stringprep", "struct", "subprocess", "sunau", "symtable", "sys", "sysconfig",
   "tabnanny", "tarfile", "telnetlib", "tempfile", "test", "textwrap", "this", "threading",
   "time", "timeit", "tkinter", "token", "tokenize", "tomllib", "trace", "traceback",
   "tracemalloc", "tty", "turtle", "turtledemo", "types", "typing", "unittest", "urllib", "uu",
   "uuid", "venv", "warnings", "wave", "weakref", "webbrowser", "wsgiref", "xdrlib", "xml",
   "xmlrpc", "zipapp", "zipfile", "zipimport", "zoneinfo"]

/-- A core module of Node, or any name under the scheme `node:`. -/
def isNodeBuiltin (name : String) : Bool :=
  Text.hasPrefix "node:".toList name.toList || nodeModules.contains name

/-- A module of the Python standard library. -/
def isPythonBuiltin (name : String) : Bool :=
  pythonModules.contains name

/-- The first element of a slash-separated path. -/
def firstElement (path : List Char) : List Char :=
  path.takeWhile (· != '/')

/-- Import paths of the Go standard library have a first element that is not empty and holds no
dot. -/
def isGoStandard (path : String) : Bool :=
  let first := firstElement path.toList
  !first.isEmpty && !first.contains '.'

end DepScope.Package
