import Checkup.Pattern.Code
import Checkup.Rule.Basic
import Checkup.Text.Lines

/-!
# Conventions of applications with an app directory

Rules for applications of the framework: the root layout, pages, client and server files, images,
links, route handlers and loading states. All of them go by texts and paths.
-/

namespace Checkup.Application

/-- The framework's applications. -/
def kinds : List Kind := [.frameworkApp]

/-- The findings about the non-empty readable files that a pattern finds. -/
def forFiles (p : Pattern) (report : String → String → List Finding) (c : Context) (t : Tree) :
    List Finding :=
  (c.findFiles t p).flatMap fun path =>
    match c.readNonempty? t path with
    | none => []
    | some text => report path text

/-- The findings about the lines of a text. -/
def forLines (text : String) (report : Nat → List Char → List Finding) : List Finding :=
  (Text.numberedLines text.toList).flatMap fun (number, line) => report number line

/-- The marks that make a file a client file. -/
def clientMarks : List String := ["\"use client\"", "'use client'"]

/-- The text has a client mark somewhere. -/
def hasClientMark (text : String) : Bool := clientMarks.any (Text.contains text)

/-! ## The root layout -/

/-- The places of the root layout, in the order in which they count. -/
def rootLayouts : List String :=
  ["app/layout.tsx", "app/layout.jsx", "src/app/layout.tsx", "src/app/layout.jsx"]

namespace RootLayout

def info : RuleInfo where
  id := "nextjs/missing-root-layout"
  name := "Root Layout Required"
  category := .nextjs
  severity := .error
  description := "Next.js App Router requires a root layout.tsx"
  help := "Create app/layout.tsx with html and body tags wrapping \x7bchildren\x7d"
  appliesTo := kinds

/-- There is no root layout. -/
def check (c : Context) (t : Tree) : List Finding :=
  if rootLayouts.any (c.fileExists t) then []
  else
    [info.finding "app/layout.tsx" "No root layout found: App Router requires app/layout.tsx"]

def rule : Rule := .ofCheck info check

end RootLayout

namespace LayoutTags

def info : RuleInfo where
  id := "nextjs/layout-html-body"
  name := "Layout Has HTML/Body"
  category := .nextjs
  severity := .error
  description := "Root layout must wrap children in <html> and <body> tags"
  help := "Add <html lang='en'><body>\x7bchildren\x7d</body></html> to root layout"
  appliesTo := kinds

/-- The first root layout with a text lacks a tag. -/
def check (c : Context) (t : Tree) : List Finding :=
  match rootLayouts.findSome? fun path => (c.readNonempty? t path).map (path, ·) with
  | none => []
  | some (path, text) =>
    (if Text.contains text "<html" then []
      else [info.finding path "Root layout missing <html> tag"]) ++
    (if Text.contains text "<body" then []
      else [info.finding path "Root layout missing <body> tag"])

def rule : Rule := .ofCheck info check

end LayoutTags

/-! ## Pages -/

namespace PageExport

def info : RuleInfo where
  id := "nextjs/page-default-export"
  name := "Page Default Export"
  category := .nextjs
  severity := .error
  description := "Page files must have a default export"
  help := "Add 'export default function PageName()' to your page file"
  appliesTo := kinds

/-- A page has no default export. -/
def check : Context → Tree → List Finding :=
  forFiles .pageFiles fun path text =>
    if Text.contains text "export default" then []
    else [info.finding path "Page file missing default export"]

def rule : Rule := .ofCheck info check

end PageExport

namespace PageMetadata

def info : RuleInfo where
  id := "nextjs/metadata-export"
  name := "Metadata Export"
  category := .nextjs
  severity := .warning
  description := "Pages/layouts should export metadata or generateMetadata for SEO"
  help := "Add 'export const metadata = \x7b title: ... \x7d' or 'export async function generateMetadata()'"
  appliesTo := kinds

/-- The texts that export metadata. -/
def marks : List String :=
  ["export const metadata", "export async function generateMetadata",
    "export function generateMetadata"]

/-- A page exports no metadata. -/
def check : Context → Tree → List Finding :=
  forFiles .pageFiles fun path text =>
    if marks.any (Text.contains text) then []
    else [info.finding path "Page missing metadata export for SEO"]

def rule : Rule := .ofCheck info check

end PageMetadata

namespace LoadingState

def info : RuleInfo where
  id := "nextjs/loading-states"
  name := "Loading States"
  category := .nextjs
  severity := .warning
  description := "Route groups with data fetching should have loading.tsx for better UX"
  help := "Create loading.tsx alongside page.tsx for Suspense-based loading states"
  appliesTo := kinds

/-- The page waits for data. -/
def fetchesData (text : String) : Bool :=
  Text.contains text "async function" &&
    (Text.contains text "fetch(" || Text.contains text "await ")

/-- The files that show a loading state. -/
def loadingFiles : List String := ["loading.tsx", "loading.jsx"]

/-- A page waits for data and has no loading state beside it. -/
def check (c : Context) (t : Tree) : List Finding :=
  forFiles .markupPageFiles (fun path text =>
    if fetchesData text &&
        !loadingFiles.any fun name => c.fileExists t (Path.join (Path.dirName path) name) then
      [info.finding path "Page with async data has no loading.tsx for Suspense"]
    else []) c t

def rule : Rule := .ofCheck info check

end LoadingState

/-! ## Client and server files -/

namespace ClientDirective

def info : RuleInfo where
  id := "nextjs/client-directive"
  name := "Client Directive Usage"
  category := .nextjs
  severity := .warning
  description := "Files using hooks/browser APIs should have 'use client' directive"
  help := "Add 'use client' at the top of files using useState, useEffect, onClick, etc."
  appliesTo := kinds
  bias := "Matches identifiers anywhere in the file, including comments and strings (false positives)."

/-- A layout that may run on the server: it lies in no folder of components. -/
def isServerLayout (path : String) : Bool :=
  Pattern.layoutFiles.accepts path && !Text.contains path "components"

/-- The first client name that a text uses. -/
def trigger? (text : String) : Option String :=
  Pattern.clientNames.find? fun name => (Pattern.wholeWord name).foundIn text.toList

/-- A file uses a client name without a client mark. -/
def check : Context → Tree → List Finding :=
  fun c t =>
    (c.findFiles t .markupFiles).flatMap fun path =>
      if isServerLayout path then []
      else
        match c.readNonempty? t path with
        | none => []
        | some text =>
          if hasClientMark text then []
          else
            match trigger? text with
            | none => []
            | some name =>
              [(info.finding path
                ("Uses " ++ name ++ " but missing \"use client\" directive")).asFixable]

/-- The directive and the empty line after it. -/
def directive : String := "\"use client\";\n\n"

/-- Puts the directive before the text of a file without a client mark. -/
def fix (c : Context) (t : Tree) (f : Finding) : Repair :=
  match c.readText? t f.file with
  | none => .unchanged t
  | some text =>
    if hasClientMark text then .unchanged t
    else .ofWrite (c.writeText t f.file (directive ++ text))

def rule : Rule := (Rule.ofCheck info check).withFix fix

end ClientDirective

namespace ServerHooks

def info : RuleInfo where
  id := "nextjs/server-component-hooks"
  name := "No Hooks in Server Components"
  category := .nextjs
  severity := .error
  description := "Server components cannot use React hooks"
  help := "Add 'use client' directive or move hooks to a client component"
  appliesTo := kinds

/-- A server file calls a hook. -/
def check : Context → Tree → List Finding :=
  forFiles .serverFiles fun path text =>
    if hasClientMark text then []
    else
      forLines text fun number line =>
        match Pattern.hookCall.firstKept? line with
        | none => []
        | some hook =>
          [(info.finding path
            ("Server component uses hook " ++ String.ofList hook ++ "()")).atLine number]

def rule : Rule := .ofCheck info check

end ServerHooks

/-! ## Markup -/

/-- The line asks linters to look away. -/
def isExempt (line : List Char) : Bool := Text.occurs "eslint-disable".toList line

namespace ImageComponent

def info : RuleInfo where
  id := "nextjs/image-component"
  name := "Use next/image"
  category := .nextjs
  severity := .warning
  description := "Use next/image instead of <img> for optimized images"
  help := "Import Image from 'next/image' and replace <img> tags"
  appliesTo := kinds

/-- A line has an image tag. -/
def check : Context → Tree → List Finding :=
  forFiles .markupFiles fun path text =>
    forLines text fun number line =>
      if Pattern.imageTag.foundIn line && !isExempt line then
        [(info.finding path "Uses <img> instead of next/image").atLine number]
      else []

def rule : Rule := .ofCheck info check

end ImageComponent

namespace LinkComponent

def info : RuleInfo where
  id := "nextjs/link-component"
  name := "Use next/link"
  category := .nextjs
  severity := .warning
  description := "Use next/link for internal navigation instead of <a> tags"
  help := "Import Link from 'next/link' and replace <a href='/...'> with <Link href='/...'>"
  appliesTo := kinds

/-- A line has an anchor with a link to a path. -/
def check : Context → Tree → List Finding :=
  forFiles .markupFiles fun path text =>
    forLines text fun number line =>
      match Pattern.internalAnchor.firstKept? line with
      | none => []
      | some target =>
        if isExempt line then []
        else
          [(info.finding path ("Uses <a> for internal link \"" ++ String.ofList target ++
            "\" instead of next/link")).atLine number]

def rule : Rule := .ofCheck info check

end LinkComponent

/-! ## Route handlers -/

namespace RouteHandler

def info : RuleInfo where
  id := "nextjs/route-handler-methods"
  name := "Route Handler Exports"
  category := .nextjs
  severity := .error
  description := "API route handlers must export named HTTP methods (GET, POST, etc.)"
  help := "Export named functions: export async function GET(request) \x7b ... \x7d"
  appliesTo := kinds

/-- The methods that a handler may export. -/
def methods : List String := ["GET", "POST", "PUT", "PATCH", "DELETE", "HEAD", "OPTIONS"]

/-- The text exports a method. -/
def exports (text method : String) : Bool :=
  ["export async function ", "export function ", "export const "].any fun lead =>
    Text.contains text (lead ++ method)

/-- A route handler exports no method. -/
def check : Context → Tree → List Finding :=
  forFiles .routeFiles fun path text =>
    if methods.any (exports text) then []
    else [info.finding path "Route handler doesn't export any HTTP methods (GET/POST/etc.)"]

def rule : Rule := .ofCheck info check

end RouteHandler

/-- The rules for applications, in their order. -/
def rules : List Rule :=
  [RootLayout.rule, LayoutTags.rule, PageExport.rule, ClientDirective.rule, ServerHooks.rule,
    PageMetadata.rule, ImageComponent.rule, LinkComponent.rule, RouteHandler.rule,
    LoadingState.rule]

end Checkup.Application
